import TextSearch.Proofs.Leaves
import TextSearch.Proofs.Levels

/-! What holds of the queries of entries holds of the query of their level. -/
namespace TextSearch.Scope

variable {P : Query → Prop}

theorem signedClauses_ok {default : Occur} {items : List Item} {clauses : List (Occur × Query)}
    (h : signedClauses default items = .ok clauses) :
    ∀ c ∈ clauses, ∃ entry sign, Item.entry entry sign ∈ items ∧ entry.toQuery = .ok c.2 := by
  induction items generalizing clauses with
  | nil =>
    cases h
    nofun
  | cons item rest ih =>
    have hrest {others} (ho : signedClauses default rest = .ok others) :
        ∀ c ∈ others, ∃ entry sign, Item.entry entry sign ∈ item :: rest ∧ entry.toQuery = .ok c.2 := by
      intro c hc
      obtain ⟨entry, sign, hm, hq⟩ := ih ho c hc
      exact ⟨entry, sign, List.mem_cons_of_mem _ hm, hq⟩
    cases item with
    | operator op position => exact hrest h
    | entry entry sign =>
      rw [signedClauses] at h
      split at h
      · cases h
      rename_i query hq
      obtain ⟨others, ho, rfl⟩ := Lexeme.map_eq_ok.1 h
      exact List.forall_mem_cons.2 ⟨⟨entry, sign, List.mem_cons_self, hq⟩, hrest ho⟩

theorem literalClauses_ok {literals : Conjunction Entry} {clauses : List (Occur × Query)}
    (h : literalClauses literals = .ok clauses) :
    ∀ c ∈ clauses, ∃ literal ∈ literals, literal.1.toQuery = .ok c.2 := by
  induction literals generalizing clauses with
  | nil =>
    cases h
    nofun
  | cons literal rest ih =>
    rw [literalClauses] at h
    split at h
    · cases h
    rename_i query hq
    obtain ⟨others, ho, rfl⟩ := Lexeme.map_eq_ok.1 h
    refine List.forall_mem_cons.2 ⟨⟨literal, List.mem_cons_self, hq⟩, fun c hc => ?_⟩
    obtain ⟨other, hm, hq⟩ := ih ho c hc
    exact ⟨other, List.mem_cons_of_mem _ hm, hq⟩

section combining
variable (combine : ∀ clauses b, (∀ c ∈ clauses, P c.2) → P (.ofClauses clauses b))
include combine

theorem conjunctionQueries_ok {cs : List (Conjunction Entry)} {queries : List Query}
    (hl : ∀ literal ∈ cs.flatten, ∀ q, literal.1.toQuery = .ok q → P q)
    (h : conjunctionQueries cs = .ok queries) : ∀ q ∈ queries, P q := by
  induction cs generalizing queries with
  | nil =>
    cases h
    nofun
  | cons conjunction rest ih =>
    obtain ⟨hc, hrest⟩ := List.forall_mem_append.1 hl
    rw [conjunctionQueries] at h
    split at h
    · exact ih hrest h
    split at h
    · cases h
    rename_i clauses hclauses
    obtain ⟨others, ho, rfl⟩ := Lexeme.map_eq_ok.1 h
    have hall : ∀ c ∈ clauses, P c.2 := by
      intro c hm
      obtain ⟨literal, hl, hq⟩ := literalClauses_ok hclauses c hm
      exact hc literal hl c.2 hq
    refine List.forall_mem_cons.2 ⟨?_, ih hrest ho⟩
    split
    · exact hall _ (List.mem_singleton_self _)
    · exact combine clauses 1 hall

/-- What holds of the queries of all entries, and of new combinations of what it holds of, holds of the query
of the level. -/
theorem toQuery_of_entries {s : Scope} {query : Query} (nothing : P (.insignificant 1))
    (entries : ∀ entry sign, Item.entry entry sign ∈ s.items → ∀ q, entry.toQuery = .ok q → P q)
    (h : s.toQuery = .ok query) : P query := by
  unfold toQuery at h
  split at h
  · obtain ⟨e, cs, queries, hread, hfinish, hqueries, rfl⟩ := expressionQuery_ok h
    have hall : ∀ q ∈ queries, P q := by
      refine conjunctionQueries_ok combine (fun literal hl => ?_) hqueries
      rw [Expression.literals_finish hfinish] at hl
      rcases readExpression_literals hread hl with hl | ⟨sign, hl⟩
      · cases hl
      · exact entries literal.1 sign hl
    unfold disjunction
    split
    · exact nothing
    · exact hall _ (List.mem_singleton_self _)
    · exact combine _ 1 (List.forall_mem_map.2 hall)
  · obtain ⟨clauses, hclauses, rfl⟩ := Lexeme.map_eq_ok.1 h
    refine combine clauses 1 fun c hc => ?_
    obtain ⟨entry, sign, hm, hq⟩ := signedClauses_ok hclauses c hc
    exact entries entry sign hm c.2 hq

end combining

end TextSearch.Scope
