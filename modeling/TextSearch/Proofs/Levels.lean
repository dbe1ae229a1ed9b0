import TextSearch.Grammar.Scope
import TextSearch.Lexeme.Scan
import TextSearch.Proofs.Failures

/-! What can happen to a level of brackets, and the failures of turning it into a query. -/
namespace TextSearch

theorem FuzzyQuery.checkSimilarity_error {s : Float32} {e : Error} (h : checkSimilarity s = .error e) :
    e.Refusal := by
  unfold checkSimilarity at h
  split at h
  · cases h
    exact .semantic _
  split at h
  · cases h
    exact .semantic _
  · cases h

theorem Entry.toQuery_error {entry : Entry} {e : Error} (h : entry.toQuery = .error e) : e.Refusal := by
  cases entry with
  | term word field similarity boost =>
    cases similarity with
    | none => cases h
    | some s =>
      exact FuzzyQuery.checkSimilarity_error (map_eq_error.1 h)
  | phrase | subquery => cases h

namespace Scope

/-- The level a group opens. -/
def inner (s : Scope) : Scope where
  inheritedField := s.field
  junction := s.junction

/-- A level with operators remembers where one of them stands. -/
def Anchored (s : Scope) : Prop :=
  s.style = some .operators → (lastOperator? s.items).isSome

@[simp] theorem lastOperator?_append_entry (items : List Item) (entry : Entry) (sign : Option Occur) :
    lastOperator? (items ++ [.entry entry sign]) = lastOperator? items := by
  simp [lastOperator?]

@[simp] theorem lastOperator?_append_operator (items : List Item) (op : Operator) (position : Nat) :
    lastOperator? (items ++ [.operator op position]) = some position := by
  simp [lastOperator?]

theorem setSign_ok {s s' : Scope} {sign : Occur} (h : s.setSign sign = .ok s') :
    s.style ≠ some .operators ∧ s' = { s with style := some .signs, pendingSign := some sign } := by
  unfold setSign at h
  split at h
  · cases h
  · rename_i ho
    cases h
    exact ⟨ho, rfl⟩

theorem setSign_error {s : Scope} {sign : Occur} {e : Error} (h : s.setSign sign = .error e) :
    s.style = some .operators ∧ e = mixedStyles := by
  unfold setSign at h
  split at h
  · rename_i ho
    cases h
    exact ⟨ho, rfl⟩
  · cases h

theorem addOperator_ok {s s' : Scope} {op : Operator} {position : Nat}
    (h : s.addOperator op position = .ok s') : s.style ≠ some .signs ∧
      s' = { s with style := some .operators, items := s.items ++ [.operator op position] } := by
  unfold addOperator at h
  split at h
  · cases h
  · rename_i hs
    cases h
    exact ⟨hs, rfl⟩

theorem addOperator_error {s : Scope} {op : Operator} {position : Nat} {e : Error}
    (h : s.addOperator op position = .error e) : s.style = some .signs ∧ e = mixedStyles := by
  unfold addOperator at h
  split at h
  · rename_i hs
    cases h
    exact ⟨hs, rfl⟩
  · cases h

/-- A modifier changes the last item, which is an entry with nothing pending behind it. -/
theorem modifyLast_ok {s s' : Scope} {misplaced : Error} {change : Entry → Except Error Entry}
    (h : s.modifyLast misplaced change = .ok s') :
    s.pendingField = none ∧ s.pendingSign = none ∧ ∃ items entry sign entry',
      s.items = items ++ [.entry entry sign] ∧ change entry = .ok entry' ∧
        s' = { s with items := items ++ [.entry entry' sign] } := by
  unfold modifyLast at h
  split at h
  · cases h
  rename_i hp
  simp only [Bool.or_eq_true, not_or, Bool.not_eq_true, Option.isSome_eq_false_iff,
    Option.isNone_iff_eq_none] at hp
  split at h
  · rename_i entry sign hl
    obtain ⟨items, hi⟩ := List.getLast?_eq_some_iff.1 hl
    cases hc : change entry with
    | error e =>
      rw [hc] at h
      cases h
    | ok entry' =>
      rw [hc, hi, List.dropLast_concat] at h
      cases h
      exact ⟨hp.1, hp.2, items, entry, sign, entry', hi, hc, rfl⟩
  · cases h

/-- All entries of a level are such. -/
def Entries (Q : Entry → Prop) (s : Scope) : Prop := ∀ entry sign, Item.entry entry sign ∈ s.items → Q entry

section entries
variable {Q : Entry → Prop} {s s' : Scope}

theorem Entries.addEntry (h : s.Entries Q) {entry : Entry} (he : Q entry) : (s.addEntry entry).Entries Q := by
  intro other sign hm
  rcases List.mem_append.1 hm with hm | hm
  · exact h other sign hm
  · cases List.mem_singleton.1 hm
    exact he

theorem Entries.setSign (h : s.Entries Q) {sign : Occur} (hs : s.setSign sign = .ok s') : s'.Entries Q := by
  obtain ⟨-, rfl⟩ := setSign_ok hs
  exact h

theorem Entries.addOperator (h : s.Entries Q) {op : Operator} {position : Nat}
    (hs : s.addOperator op position = .ok s') : s'.Entries Q := by
  obtain ⟨-, rfl⟩ := addOperator_ok hs
  intro entry sign hm
  rcases List.mem_append.1 hm with hm | hm
  · exact h entry sign hm
  · cases List.mem_singleton.1 hm

theorem Entries.modifyLast (h : s.Entries Q) {misplaced : Error} {change : Entry → Except Error Entry}
    (hc : ∀ entry entry', Q entry → change entry = .ok entry' → Q entry')
    (hs : s.modifyLast misplaced change = .ok s') : s'.Entries Q := by
  obtain ⟨-, -, items, entry, sign, entry', hi, he, rfl⟩ := modifyLast_ok hs
  intro other sign' hm
  rcases List.mem_append.1 hm with hm | hm
  · exact h other sign' (by simp [hi, hm])
  · cases List.mem_singleton.1 hm
    exact hc entry entry' (h entry sign (by simp [hi])) he

end entries

theorem Anchored.addEntry {s : Scope} (h : s.Anchored) (entry : Entry) : (s.addEntry entry).Anchored := by
  intro hs
  simpa [Scope.addEntry] using h hs

theorem Anchored.setField {s : Scope} (h : s.Anchored) (field : String) : (s.setField field).Anchored := h

theorem Anchored.setSign {s s' : Scope} {sign : Occur} (h : s.setSign sign = .ok s') : s'.Anchored := by
  obtain ⟨-, rfl⟩ := setSign_ok h
  nofun

theorem Anchored.addOperator {s s' : Scope} {op : Operator} {position : Nat}
    (h : s.addOperator op position = .ok s') : s'.Anchored := by
  obtain ⟨-, rfl⟩ := addOperator_ok h
  intro _
  simp

theorem Anchored.modifyLast {s s' : Scope} {misplaced : Error} {change : Entry → Except Error Entry}
    (hs : s.Anchored) (h : s.modifyLast misplaced change = .ok s') : s'.Anchored := by
  obtain ⟨-, -, items, entry, sign, entry', hi, -, rfl⟩ := modifyLast_ok h
  intro ho
  simpa [hi] using hs ho

/-- An entry among the items has no query. -/
def EntryFails (items : List Item) (e : Error) : Prop :=
  ∃ entry sign, Item.entry entry sign ∈ items ∧ entry.toQuery = .error e

theorem EntryFails.refusal {items : List Item} {e : Error} (h : EntryFails items e) : e.Refusal := by
  obtain ⟨entry, sign, -, he⟩ := h
  exact Entry.toQuery_error he

theorem signedClauses_error {default : Occur} {items : List Item} {e : Error}
    (h : signedClauses default items = .error e) : EntryFails items e := by
  induction items with
  | nil => cases h
  | cons item rest ih =>
    have hrest : EntryFails rest e → EntryFails (item :: rest) e := by
      rintro ⟨entry, sign, hm, he⟩
      exact ⟨entry, sign, List.mem_cons_of_mem _ hm, he⟩
    cases item with
    | operator op position => exact hrest (ih h)
    | entry entry sign =>
      simp only [signedClauses] at h
      split at h
      · rename_i e' he
        cases h
        exact ⟨entry, sign, List.mem_cons_self, he⟩
      · exact hrest (ih (map_eq_error.1 h))

theorem literalClauses_error {c : Conjunction Entry} {e : Error} (h : literalClauses c = .error e) :
    ∃ literal ∈ c, literal.1.toQuery = .error e := by
  induction c with
  | nil => cases h
  | cons literal rest ih =>
    obtain ⟨entry, positive⟩ := literal
    simp only [literalClauses] at h
    split at h
    · rename_i e' he
      cases h
      exact ⟨(entry, positive), List.mem_cons_self, he⟩
    · obtain ⟨literal, hm, he⟩ := ih (map_eq_error.1 h)
      exact ⟨literal, List.mem_cons_of_mem _ hm, he⟩

theorem signedClauses_entries {default : Occur} {items : List Item} {clauses : List (Occur × Query)}
    (h : signedClauses default items = .ok clauses) {entry : Entry} {sign : Option Occur}
    (hm : Item.entry entry sign ∈ items) : ∃ query, entry.toQuery = .ok query := by
  induction items generalizing clauses with
  | nil => cases hm
  | cons item rest ih =>
    cases item with
    | operator op position => exact ih h ((List.mem_cons.1 hm).resolve_left nofun)
    | entry other sign' =>
      rw [signedClauses] at h
      split at h
      · cases h
      rename_i query hq
      obtain ⟨clauses, hrest, -⟩ := Lexeme.map_eq_ok.1 h
      rcases List.mem_cons.1 hm with heq | hm
      · cases heq
        exact ⟨query, hq⟩
      · exact ih hrest hm

theorem literalClauses_literals {c : Conjunction Entry} {clauses : List (Occur × Query)}
    (h : literalClauses c = .ok clauses) : ∀ literal ∈ c, ∃ query, literal.1.toQuery = .ok query := by
  induction c generalizing clauses with
  | nil => nofun
  | cons literal rest ih =>
    rw [literalClauses] at h
    split at h
    · cases h
    rename_i query hq
    obtain ⟨clauses, hrest, -⟩ := Lexeme.map_eq_ok.1 h
    exact List.forall_mem_cons.2 ⟨⟨query, hq⟩, ih hrest⟩

theorem conjunctionQueries_literals {cs : List (Conjunction Entry)} {queries : List Query}
    (h : conjunctionQueries cs = .ok queries) {c : Conjunction Entry} (hc : c ∈ cs)
    (hpositive : ∃ literal ∈ c, literal.2 = true) : ∀ literal ∈ c, ∃ query, literal.1.toQuery = .ok query := by
  induction cs generalizing queries with
  | nil => cases hc
  | cons first rest ih =>
    rw [conjunctionQueries] at h
    split at h
    · rename_i hnegative
      rcases List.mem_cons.1 hc with rfl | hc
      · obtain ⟨literal, hm, hp⟩ := hpositive
        simpa [hp] using List.all_eq_true.1 hnegative literal hm
      · exact ih h hc
    · split at h
      · cases h
      rename_i clauses hclauses
      obtain ⟨others, hrest, -⟩ := Lexeme.map_eq_ok.1 h
      rcases List.mem_cons.1 hc with rfl | hc
      · exact literalClauses_literals hclauses
      · exact ih hrest hc

/-- Conjunctions have no queries for a literal of one that is not only of negations. -/
theorem conjunctionQueries_error {cs : List (Conjunction Entry)} {e : Error}
    (h : conjunctionQueries cs = .error e) :
    ∃ c ∈ cs, (∃ literal ∈ c, literal.2 = true) ∧ ∃ literal ∈ c, literal.1.toQuery = .error e := by
  induction cs with
  | nil => cases h
  | cons c rest ih =>
    simp only [conjunctionQueries] at h
    split at h
    · obtain ⟨c', hc, hfails⟩ := ih h
      exact ⟨c', List.mem_cons_of_mem _ hc, hfails⟩
    rename_i hpositive
    split at h
    · rename_i e' he
      cases h
      exact ⟨c, List.mem_cons_self, by simpa using hpositive, literalClauses_error he⟩
    · obtain ⟨c', hc, hfails⟩ := ih (map_eq_error.1 h)
      exact ⟨c', List.mem_cons_of_mem _ hc, hfails⟩

end Scope

namespace Expression

variable {α : Type}

/-- The literals of an expression, in order. -/
def literals (y : Expression α) : Conjunction α := y.closed.flatten ++ y.current

@[simp] theorem literals_close (y : Expression α) : y.close.literals = y.literals := by
  unfold close
  split <;> simp_all [literals]

@[simp] theorem literals_closeImplicitly (y : Expression α) :
    y.closeImplicitly.literals = y.literals := by
  unfold closeImplicitly
  split <;> simp

theorem literals_addLiteral (y : Expression α) (literal : α) :
    (y.addLiteral literal).literals = y.literals ++ [(literal, y.ending != .operator .not)] := by
  by_cases hy : y.ending = .literal
  · have hc := y.literals_closeImplicitly
    unfold literals at hc ⊢
    simp only [addLiteral, hy, if_true]
    rw [← List.append_assoc, hc]
  · simp [addLiteral, hy, literals]

theorem literals_addOperator {y y' : Expression α} {op : Operator} (h : y.addOperator op = (.ok (), y')) :
    y'.literals = y.literals := by
  unfold addOperator at h
  split at h <;> cases h
  · rfl
  · exact y.literals_close
  · exact y.literals_closeImplicitly
  · rfl

/-- Whether an operator may stand behind an ending. -/
def Continues (ending : Ending) : Operator → Prop
  | .not => ending ≠ .operator .not
  | _ => ending = .literal

theorem addOperator_continues {y y' : Expression α} {op : Operator} (h : y.addOperator op = (.ok (), y')) :
    Continues y.ending op ∧ y'.ending = .operator op := by
  unfold addOperator at h
  split at h <;> cases h
  all_goals rename_i he
  all_goals simp_all [Continues]

/-- A refused operator changes nothing. -/
theorem addOperator_stops {y y' : Expression α} {op : Operator} {e : Error}
    (h : y.addOperator op = (.error e, y')) : ¬Continues y.ending op ∧ e = literalExpected ∧ y' = y := by
  unfold addOperator at h
  cases hx : y.ending with
  | nothing | literal => cases op <;> simp_all [Continues]
  | operator last => cases last <;> cases op <;> simp_all [Continues]

theorem current_close (y : Expression α) : y.close.current = [] := by
  unfold close
  split
  · rename_i hc
    exact List.isEmpty_iff.1 hc
  · rfl

theorem ending_of_finish {y : Expression α} {cs : List (Conjunction α)} (h : y.finish = .ok cs) :
    y.ending = .literal := by
  unfold finish at h
  split at h
  · rename_i hl
    exact hl
  · cases h

theorem literals_finish {y : Expression α} {cs : List (Conjunction α)} (h : y.finish = .ok cs) :
    cs.flatten = y.literals := by
  unfold finish at h
  split at h
  · cases h
    rw [← y.literals_close, literals, current_close, List.append_nil]
  · cases h

end Expression

namespace Scope

theorem readExpression_literals {y y' : Expression Entry} {items : List Item}
    (h : readExpression y items = .ok y') {literal : Entry × Bool} (hl : literal ∈ y'.literals) :
    literal ∈ y.literals ∨ ∃ sign, Item.entry literal.1 sign ∈ items := by
  induction items generalizing y with
  | nil =>
    cases h
    exact .inl hl
  | cons item rest ih =>
    cases item with
    | entry entry sign =>
      rcases ih h with hm | ⟨sign', hm⟩
      · rw [y.literals_addLiteral entry, List.mem_append, List.mem_singleton] at hm
        rcases hm with hm | rfl
        · exact .inl hm
        · exact .inr ⟨sign, List.mem_cons_self⟩
      · exact .inr ⟨sign', List.mem_cons_of_mem _ hm⟩
    | operator op position =>
      simp only [readExpression] at h
      split at h
      · cases h
      rename_i y₁ ho
      rcases ih h with hm | ⟨sign', hm⟩
      · exact .inl (Expression.literals_addOperator ho ▸ hm)
      · exact .inr ⟨sign', List.mem_cons_of_mem _ hm⟩

theorem expressionQuery_ok {s : Scope} {query : Query} (h : s.expressionQuery = .ok query) :
    ∃ e cs queries, readExpression { junction := s.junction } s.items = .ok e ∧ e.finish = .ok cs ∧
      conjunctionQueries cs = .ok queries ∧ query = disjunction queries := by
  obtain ⟨e, hread, h⟩ := bind_eq_ok.1 h
  cases hf : e.finish with
  | error failure =>
    rw [hf] at h
    cases h
  | ok cs =>
    rw [hf] at h
    obtain ⟨_, ⟨⟩, h⟩ := bind_eq_ok.1 h
    obtain ⟨queries, hqueries, h⟩ := bind_eq_ok.1 h
    cases h
    exact ⟨e, cs, queries, hread, hf, hqueries, rfl⟩

/-- A level of operators fails at one of its operators or at its end, and else for one of its conjunctions. -/
theorem expressionQuery_error {s : Scope} {e : Error} (h : s.expressionQuery = .error e) :
    readExpression { junction := s.junction } s.items = .error e ∨
      ∃ x, readExpression { junction := s.junction } s.items = .ok x ∧
        (x.ending ≠ .literal ∧
            e = (lastOperator? s.items).elim Expression.literalExpected Expression.literalExpected.locate ∨
          ∃ cs, x.finish = .ok cs ∧ conjunctionQueries cs = .error e) := by
  unfold expressionQuery at h
  simp only [bind, Except.bind] at h
  cases hr : readExpression { junction := s.junction } s.items with
  | error f =>
    rw [hr] at h
    cases h
    exact .inl rfl
  | ok x =>
    simp only [hr] at h
    cases hf : x.finish with
    | error f =>
      simp only [hf] at h
      unfold Expression.finish at hf
      split at hf
      · cases hf
      · rename_i hl
        cases hf
        cases h
        exact .inr ⟨x, rfl, .inl ⟨hl, rfl⟩⟩
    | ok cs =>
      simp only [hf] at h
      split at h
      · rename_i f hq
        cases h
        exact .inr ⟨x, rfl, .inr ⟨cs, hf, hq⟩⟩
      · cases h

theorem readExpression_error {x : Expression Entry} {items : List Item} {e : Error}
    (h : readExpression x items = .error e) : ∃ position f, e = Error.locate position f := by
  induction items generalizing x with
  | nil => cases h
  | cons item rest ih =>
    cases item with
    | entry entry sign => exact ih h
    | operator op position =>
      simp only [readExpression] at h
      split at h
      · rename_i f _ hf
        cases h
        exact ⟨position, f, rfl⟩
      · exact ih h

/-- The failures of a level are placed already. -/
theorem toQuery_error_locate {s : Scope} (hs : s.Anchored) {e : Error} (h : s.toQuery = .error e)
    (position : Nat) : e.locate position = e := by
  unfold toQuery at h
  split at h
  · rename_i ho
    rcases expressionQuery_error h with hr | ⟨x, -, ⟨-, rfl⟩ | ⟨cs, -, hf⟩⟩
    · obtain ⟨q, f, rfl⟩ := readExpression_error hr
      exact Error.locate_locate f q position
    · obtain ⟨q, hq⟩ := Option.isSome_iff_exists.1 (hs ho)
      rw [hq]
      exact Error.locate_locate Expression.literalExpected q position
    · obtain ⟨c, -, -, literal, -, he⟩ := conjunctionQueries_error hf
      exact (Entry.toQuery_error he).locate position
  · exact (signedClauses_error (map_eq_error.1 h)).refusal.locate position

end Scope
end TextSearch
