import TextSearch.Proofs.Conjunctions
import TextSearch.Proofs.Entries
import TextSearch.Proofs.Stages

/-! What the query of a level of operators finds: the documents for which one of its conjunctions holds. -/
namespace TextSearch

namespace Scope

/-- Adds an item: an entry behind the sign set for it, or an operator. -/
def add (s : Scope) : Item → Except Error Scope
  | .entry entry none => .ok (s.addEntry entry)
  | .entry entry (some sign) => (s.setSign sign).map (·.addEntry entry)
  | .operator op position => s.addOperator op position

/-- A level without a pending sign gets just the item. -/
theorem add_ok {s s' : Scope} {item : Item} (hs : s.pendingSign = none) (h : s.add item = .ok s') :
    s'.pendingSign = none ∧ s'.junction = s.junction ∧ s'.items = s.items ++ [item] := by
  cases item with
  | operator op position =>
    obtain ⟨-, rfl⟩ := addOperator_ok h
    exact ⟨hs, rfl, rfl⟩
  | entry entry sign =>
    cases sign with
    | none =>
      cases h
      exact ⟨rfl, rfl, by rw [addEntry, hs]⟩
    | some sign =>
      obtain ⟨s₁, hsign, rfl⟩ := Lexeme.map_eq_ok.1 h
      obtain ⟨-, rfl⟩ := setSign_ok hsign
      exact ⟨rfl, rfl, rfl⟩

theorem addAll_ok {s s' : Scope} {items : List Item} (hs : s.pendingSign = none)
    (h : items.foldlM add s = .ok s') : s'.junction = s.junction ∧ s'.items = s.items ++ items := by
  induction items generalizing s with
  | nil =>
    cases h
    exact ⟨rfl, (List.append_nil _).symm⟩
  | cons item rest ih =>
    obtain ⟨s₁, hadd, hrest⟩ := bind_eq_ok.1 h
    obtain ⟨hpending, hjunction, hitems⟩ := add_ok hs hadd
    obtain ⟨hj, hi⟩ := ih hpending hrest
    exact ⟨hj.trans hjunction, by rw [hi, hitems, List.append_assoc, List.singleton_append]⟩

end Scope

/-- A conjunction holds if it has a positive literal and all positive literals hold, but no negative one. -/
def Conjunction.Holds {α : Type} (c : Conjunction α) (p : α → Prop) : Prop :=
  (∃ l ∈ c, l.2 = true) ∧ (∀ l ∈ c, l.2 = true → p l.1) ∧ ∀ l ∈ c, l.2 = false → ¬ p l.1

namespace Conjunction
variable {α : Type} {c : Conjunction α} {p q : α → Prop}

theorem not_holds_of_negative (h : (c.all fun (_, positive) => !positive) = true) : ¬ c.Holds p := by
  rintro ⟨⟨l, hl, hpositive⟩, -⟩
  simpa [hpositive] using List.all_eq_true.1 h l hl

theorem holds_iff_conditions :
    c.Holds p ↔ Conditions.Holds (c.map fun l => (if l.2 then .required else .prohibited, p l.1)) := by
  have hrequired (b : Bool) : (if b then Occur.required else .prohibited) = .required ↔ b = true := by
    cases b <;> decide
  have hoptional (b : Bool) : (if b then Occur.required else .prohibited) ≠ .optional := by cases b <;> decide
  have hprohibited (b : Bool) : (if b then Occur.required else .prohibited) = .prohibited ↔ b = false := by
    cases b <;> decide
  simp only [Holds, Conditions.Holds, Conditions.allRequired_map, Conditions.mandatory_map,
    Conditions.anyOptional_map, Conditions.anyProhibited_map, hrequired, hoptional, hprohibited, false_and,
    and_false, exists_false, or_false, not_exists, not_and]
  tauto

/-- A condition can be moved into all literals of a conjunction, of which one is positive. -/
theorem and_holds_iff (b : Prop) : b ∧ c.Holds p ↔ c.Holds fun a => b ∧ p a := by
  by_cases hb : b
  · simp only [hb, true_and]
  · refine iff_of_false (fun h => hb h.1) ?_
    rintro ⟨⟨l, hl, hpositive⟩, hall, -⟩
    exact hb (hall l hl hpositive).1

theorem holds_congr (h : ∀ l ∈ c, (p l.1 ↔ q l.1)) : c.Holds p ↔ c.Holds q :=
  and_congr_right' (and_congr (forall₂_congr fun l hl => imp_congr_right fun _ => h l hl)
    (forall₂_congr fun l hl => imp_congr_right fun _ => not_congr (h l hl)))

end Conjunction

/-- A document is a candidate of the query of an entry. -/
def Entry.Candidate (ix : Index) (doc : Nat) (entry : Entry) : Prop :=
  ∃ q, entry.toQuery = .ok q ∧ q.Candidate ix doc

namespace Scope
variable {ix : Index} {doc : Nat}

theorem literalClauses_conditions {c : Conjunction Entry} {clauses : List (Occur × Query)}
    (h : literalClauses c = .ok clauses) :
    (clauses.map fun d => (d.1, d.2.Candidate ix doc)) =
      c.map fun l => (if l.2 then .required else .prohibited, l.1.Candidate ix doc) := by
  induction c generalizing clauses with
  | nil =>
    cases h
    rfl
  | cons l rest ih =>
    rw [literalClauses] at h
    split at h
    · cases h
    rename_i query hquery
    obtain ⟨others, ho, rfl⟩ := Lexeme.map_eq_ok.1 h
    have hcandidate : l.1.Candidate ix doc ↔ query.Candidate ix doc := by simp [Entry.Candidate, hquery]
    rw [List.map_cons, List.map_cons, ih ho, propext hcandidate]

/-- A document is a candidate of one of the queries just if one of the conjunctions holds for it. -/
theorem conjunctionQueries_candidate {cs : List (Conjunction Entry)} {queries : List Query}
    (h : conjunctionQueries cs = .ok queries) :
    (∃ q ∈ queries, q.Candidate ix doc) ↔ ∃ c ∈ cs, c.Holds (Entry.Candidate ix doc) := by
  induction cs generalizing queries with
  | nil =>
    cases h
    simp
  | cons c rest ih =>
    rw [conjunctionQueries] at h
    split at h
    · rename_i hnegative
      rw [ih h, List.exists_mem_cons_iff]
      simp [Conjunction.not_holds_of_negative hnegative]
    · rename_i hpositive
      split at h
      · cases h
      rename_i clauses hclauses
      obtain ⟨others, ho, rfl⟩ := Lexeme.map_eq_ok.1 h
      have hconditions : (clauses.map fun d => (d.1, d.2.Candidate ix doc)) = _ := literalClauses_conditions hclauses
      rw [List.exists_mem_cons_iff, List.exists_mem_cons_iff, ih ho]
      refine or_congr_left ?_
      rw [Conjunction.holds_iff_conditions, ← hconditions]
      split
      · -- the single literal is positive, so its own query can stand for the conjunction
        obtain ⟨l, rfl, hl⟩ := List.map_eq_singleton_iff.1 hconditions.symm
        have hpos : l.2 = true := by simpa using hpositive
        rw [hpos, if_pos rfl] at hl
        have hsign := (Prod.mk.inj hl).1
        subst hsign
        exact (Conditions.holds_singleton Occur.noConfusion).symm
      · rw [Query.ofClauses, Query.Candidate, Query.Answers, Query.clauseConditions_eq_map]

theorem disjunction_candidate (queries : List Query) :
    (disjunction queries).Candidate ix doc ↔ ∃ q ∈ queries, q.Candidate ix doc := by
  unfold disjunction
  split
  · simp [Query.Answers]
  · simp
  · rw [Query.ofClauses, Query.Candidate, Query.Answers, Query.clauseConditions_eq_map, List.map_map,
      Conditions.holds_map_of_all_optional fun _ _ => rfl]
    rfl

end Scope

/-- Only resolved queries can be executed. -/
theorem Query.resolved_of_execute {ix : Index} {filter : Option DocSet} {q : Query}
    (h : (q.execute ix filter).1 = .ok ()) : q.Resolved := by
  have hneeds : q.NeedsResolved (q.execute ix filter).1 := executeGiven_needsResolved q none
  rwa [h] at hneeds

namespace Entry

/-- The documents that the query in brackets finds on its own. -/
def found (ix : Index) (filter : Option DocSet) : Entry → DocSet
  | subquery query _ => (query.execute ix filter).2.docs
  | _ => ∅

/-- Brackets around a query that can be executed. -/
def Executable (ix : Index) (filter : Option DocSet) (entry : Entry) : Prop :=
  ∃ query boost, entry = subquery query boost ∧ (query.execute ix filter).1 = .ok ()

variable {ix : Index} {filter : Option DocSet} {entry : Entry}

theorem Executable.resolved (h : entry.Executable ix filter) {q : Query} (hq : entry.toQuery = .ok q) :
    q.Resolved := by
  obtain ⟨query, boost, rfl, hok⟩ := h
  cases hq
  exact Query.resolved_closed.withBoost (Query.resolved_of_execute hok) _

/-- The boost of brackets does not change what is found. -/
theorem Executable.mem_found_iff (h : entry.Executable ix filter) (doc : Nat) :
    doc ∈ entry.found ix filter ↔ DocSet.Passes filter doc ∧ entry.Candidate ix doc := by
  obtain ⟨query, boost, rfl, hok⟩ := h
  obtain ⟨r, hr, hfinds⟩ := (Query.resolved_of_execute hok).execute_ok ix filter
  have hcandidate : (subquery query boost).Candidate ix doc ↔ query.Candidate ix doc := by
    simp [Candidate, toQuery, Query.candidate_withBoost]
  rw [found, hr, hcandidate]
  exact hfinds.mem_docs_iff doc

end Entry

namespace Scope

variable {ix : Index} {filter : Option DocSet}

theorem expressionQuery_alternatives {s : Scope} {query : Query} (h : s.expressionQuery = .ok query) :
    ∃ queries, conjunctionQueries (Expression.alternatives s.junction (s.items.map Item.symbol)) = .ok queries ∧
      query = disjunction queries ∧
      ∀ c ∈ Expression.alternatives s.junction (s.items.map Item.symbol), ∀ l ∈ c,
        ∃ sign, Item.entry l.1 sign ∈ s.items := by
  obtain ⟨e, cs, queries, hread, hfinish, hqueries, rfl⟩ := expressionQuery_ok h
  have hcs := Expression.finish_alternatives (readExpression_feeds hread) hfinish
  rw [← hcs]
  refine ⟨queries, hqueries, rfl, fun c hc l hl => ?_⟩
  have hmem : l ∈ e.literals := by
    rw [← Expression.literals_finish hfinish]
    exact List.mem_flatten_of_mem hc hl
  exact (readExpression_literals hread hmem).resolve_left (by simp [Expression.literals])

/-- A level of operators between brackets finds the documents of its alternatives. -/
theorem toQuery_finds_alternatives {field : Option String} {junction : Junction} {items : List Item}
    {s : Scope} {query : Query}
    (hadd : items.foldlM add { inheritedField := field, junction } = .ok s)
    (hstyle : s.style = some .operators)
    (hentries : ∀ entry sign, Item.entry entry sign ∈ items → entry.Executable ix filter)
    (hquery : s.toQuery = .ok query) :
    ∃ r, query.execute ix filter = (.ok (), r) ∧ r.matchedDocs = .ok r.docs ∧
      ∀ doc, doc ∈ r.docs ↔ ∃ c ∈ Expression.alternatives junction (items.map Item.symbol),
        c.Holds fun entry => doc ∈ entry.found ix filter := by
  obtain ⟨hjunction, hitems⟩ := addAll_ok rfl hadd
  rw [List.nil_append] at hitems
  have hresolved : query.Resolved := by
    refine toQuery_of_entries (fun _ b h => Query.resolved_closed.ofClauses h b) (.insignificant 1) ?_ hquery
    intro entry sign hm q hq
    exact (hentries entry sign (hitems ▸ hm)).resolved hq
  obtain ⟨r, hr, hfinds⟩ := hresolved.execute_ok ix filter
  refine ⟨r, hr, hfinds.resolved.matchedDocs_ok, fun doc => ?_⟩
  rw [toQuery, if_pos hstyle] at hquery
  obtain ⟨queries, hqueries, rfl, hliterals⟩ := expressionQuery_alternatives hquery
  rw [hjunction, hitems] at hqueries hliterals
  rw [hfinds.mem_docs_iff, disjunction_candidate, conjunctionQueries_candidate hqueries, exists_and_left.symm]
  refine exists_congr fun c => ?_
  rw [and_left_comm]
  refine and_congr_right fun hc => ?_
  rw [Conjunction.and_holds_iff]
  refine Conjunction.holds_congr fun l hl => ?_
  obtain ⟨sign, hm⟩ := hliterals c hc l hl
  rw [(hentries l.1 sign hm).mem_found_iff]

/-- A word of the field in brackets. -/
def bracketed (word : String) : Item := .entry (.subquery (.ofTerm (.inField "f" word) 1) 1) none

/-- All operators, a negation directly behind an entry, and a negation on its own. -/
def mixedOperators : List Item := [bracketed "a", .operator .and 1, bracketed "b", .operator .not 2, bracketed "c",
  .operator .or 3, .operator .not 4, bracketed "a", .operator .or 5, bracketed "c"]

def mixedOperatorsLevel : Scope where
  inheritedField := none
  junction := .and
  style := some .operators
  items := mixedOperators

def mixedOperatorsQuery : Query :=
  let word (w : String) := (Query.ofTerm (.inField "f" w) 1).withBoost (1 * 1)
  .ofClauses [(.optional, .ofClauses [(.required, word "a"), (.required, word "b"), (.prohibited, word "c")] 1),
    (.optional, word "c")] 1

theorem mixedOperators_finds :
    mixedOperators.foldlM add { inheritedField := none, junction := .and } = .ok mixedOperatorsLevel ∧
      mixedOperatorsLevel.style = some .operators ∧
      (∀ entry sign, Item.entry entry sign ∈ mixedOperators → entry.Executable Query.threeDocuments none) ∧
      mixedOperatorsLevel.toQuery = .ok mixedOperatorsQuery ∧
      ∃ r, mixedOperatorsQuery.execute Query.threeDocuments none = (.ok (), r) ∧ r.matchedDocs = .ok r.docs ∧
        ∀ doc, doc ∈ r.docs ↔ ∃ c ∈ Expression.alternatives .and (mixedOperators.map Item.symbol),
          c.Holds fun entry => doc ∈ entry.found Query.threeDocuments none := by
  have hadd : mixedOperators.foldlM add { inheritedField := none, junction := .and } = .ok mixedOperatorsLevel := rfl
  have hentries : ∀ entry sign, Item.entry entry sign ∈ mixedOperators →
      entry.Executable Query.threeDocuments none := by
    intro entry sign hm
    simp only [mixedOperators, bracketed, List.mem_cons, Item.entry.injEq, reduceCtorEq, List.not_mem_nil, or_false,
      false_or] at hm
    rcases hm with h | h | h | h | h
    all_goals exact ⟨_, _, h.1, rfl⟩
  have hquery : mixedOperatorsLevel.toQuery = .ok mixedOperatorsQuery := rfl
  exact ⟨hadd, rfl, hentries, hquery, toQuery_finds_alternatives hadd rfl hentries hquery⟩

end Scope

end TextSearch
