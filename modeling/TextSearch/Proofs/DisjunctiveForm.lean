import TextSearch.Proofs.Alternatives

/-! Which sequences of literals and operators can be read, how their literals are cut into conjunctions, and that
refused operators count for nothing. -/
namespace TextSearch.Expression

open TextSearch.Expression.Symbol

variable {α : Type} {junction : Junction} {xs : List (Symbol α)} {e e' : Expression α}

/-- Reads symbols one after the other, up to the end. -/
def read (junction : Junction) (xs : List (Symbol α)) : Except Error (List (Conjunction α)) :=
  (xs.foldlM feed { junction }).bind finish

/-- Conjunctions and disjunctions directly follow a literal, negations do not follow each other, and a literal
stands last. -/
structure WellFormed (xs : List (Symbol α)) : Prop where
  joined : ∀ before op after, xs = before ++ .operator op :: after → op ≠ .not →
    ∃ a, before.getLast? = some (.literal a)
  negated : ∀ before after, xs = before ++ .operator .not :: after → before.getLast? ≠ some (.operator .not)
  ended : ∃ a, xs.getLast? = some (.literal a)

/-- Whether two literals with these operators between them are in different conjunctions. -/
def Separates (junction : Junction) (gap : List Operator) : Prop :=
  .or ∈ gap ∨ (.and ∉ gap ∧ .or ∉ gap ∧ junction = .or)

/-- Between two conjunctions, exactly the literals `l` have passed. -/
def CutAt (cs : List (Conjunction α)) (l : Conjunction α) : Prop :=
  ∃ front back, cs = front ++ back ∧ front.flatten = l

/-- All literals in order, cut into conjunctions where their operators say so. -/
structure DisjunctiveForm (junction : Junction) (xs : List (Symbol α)) (cs : List (Conjunction α)) : Prop where
  literals_eq : cs.flatten = signed false xs
  ne_nil : ∀ c ∈ cs, c ≠ []
  cutAt_iff : ∀ before a gap b after,
    xs = before ++ .literal a :: (gap.map .operator ++ .literal b :: after) →
      (CutAt cs (signed false (before ++ [.literal a])) ↔ Separates junction gap)

/-- An expression behind any symbols, as it is whether they are refused or not. -/
def takeAll (e : Expression α) (xs : List (Symbol α)) : Expression α := xs.foldl (fun e x => (e.take x).2) e

/-- The symbols of a sequence that are not refused. -/
def accepted (e : Expression α) : List (Symbol α) → List (Symbol α)
  | [] => []
  | x :: rest =>
    match e.take x with
    | (.ok (), e') => x :: accepted e' rest
    | (.error _, e') => accepted e' rest

instance : ∀ (ending : Ending) (op : Operator), Decidable (Continues ending op)
  | ending, .not => inferInstanceAs (Decidable (ending ≠ .operator .not))
  | ending, .and | ending, .or => inferInstanceAs (Decidable (ending = .literal))

/-- Leaves out each operator that may not stand behind what is left before it. -/
def kept (ending : Ending) : List (Symbol α) → List (Symbol α)
  | [] => []
  | .literal a :: rest => .literal a :: kept .literal rest
  | .operator op :: rest =>
    if Continues ending op then .operator op :: kept (.operator op) rest else kept ending rest

/-- A refused symbol leaves an expression as it was. -/
theorem take_refused {x : Symbol α} {failure : Error} (h : e.take x = (.error failure, e')) : e' = e := by
  cases x with
  | literal a => cases h
  | operator op => exact (addOperator_stops h).2.2

theorem feed_accepted (e : Expression α) (xs : List (Symbol α)) :
    (accepted e xs).foldlM feed e = .ok (e.takeAll xs) := by
  induction xs generalizing e with
  | nil => rfl
  | cons x rest ih =>
    rw [accepted, takeAll, List.foldl_cons]
    split
    · rename_i e' hx
      rw [List.foldlM_cons, feed_eq_ok.2 hx, hx]
      exact ih e'
    · rename_i failure e' hx
      rw [hx, take_refused hx]
      exact ih e

theorem accepted_eq_kept (e : Expression α) (xs : List (Symbol α)) : accepted e xs = kept e.ending xs := by
  induction xs generalizing e with
  | nil => rfl
  | cons x rest ih =>
    rw [accepted]
    cases x with
    | literal a => exact congrArg _ (ih (e.addLiteral a))
    | operator op =>
      rw [take, kept]
      split
      · rename_i e' hop
        obtain ⟨hcontinues, hending⟩ := addOperator_continues hop
        rw [if_pos hcontinues, ← hending]
        exact congrArg _ (ih e')
      · rename_i failure e' hop
        obtain ⟨hstops, -, rfl⟩ := addOperator_stops hop
        rw [if_neg hstops]
        exact ih e'

/-- Every operator may stand behind what is before it. -/
def OperatorsPlaced (xs : List (Symbol α)) : Prop :=
  ∀ before op after, xs = before ++ .operator op :: after → Continues (endingOf before.getLast?) op

theorem operatorsPlaced_concat {x : Symbol α} :
    OperatorsPlaced (xs ++ [x]) ↔
      OperatorsPlaced xs ∧ ∀ op, x = .operator op → Continues (endingOf xs.getLast?) op := by
  constructor
  · intro h
    refine ⟨fun before op after hxs => h before op (after ++ [x]) ?_, fun op hx => h xs op [] ?_⟩
    · rw [hxs, List.append_assoc, List.cons_append]
    · rw [hx]
  · rintro ⟨hxs, hx⟩ before op after heq
    cases after using List.reverseRecOn with
    | nil =>
      obtain ⟨rfl, rfl⟩ := List.append_singleton_inj.1 heq
      exact hx op rfl
    | append_singleton after y =>
      rw [← List.cons_append, ← List.append_assoc] at heq
      obtain ⟨rfl, -⟩ := List.append_singleton_inj.1 heq
      exact hxs before op after rfl

theorem ending_of_feedAll (h : xs.foldlM feed { junction } = .ok e) : e.ending = endingOf xs.getLast? :=
  (ReadFrom.nothing.feedAll h).ending_eq

/-- Symbols can be read just if every operator may stand where it does. -/
theorem feedAll_ok_iff (junction : Junction) (xs : List (Symbol α)) :
    (∃ e, xs.foldlM feed { junction } = .ok e) ↔ OperatorsPlaced xs := by
  induction xs using List.reverseRecOn with
  | nil => exact ⟨fun _ before op after h => by simp at h, fun _ => ⟨_, rfl⟩⟩
  | append_singleton xs x ih =>
    rw [operatorsPlaced_concat, ← ih, List.foldlM_append]
    constructor
    · rintro ⟨e', h⟩
      obtain ⟨e, he, hx⟩ := bind_eq_ok.1 h
      refine ⟨⟨e, he⟩, ?_⟩
      rintro op rfl
      obtain ⟨e₁, hop, -⟩ := bind_eq_ok.1 hx
      rw [← ending_of_feedAll he]
      exact (addOperator_continues (feed_eq_ok.1 hop)).1
    · rintro ⟨⟨e, he⟩, hx⟩
      cases x with
      | literal a => exact ⟨_, bind_eq_ok.2 ⟨e, he, rfl⟩⟩
      | operator op =>
        rcases hop : e.addOperator op with ⟨failure | _, e'⟩
        · have hcontinues := hx op rfl
          rw [← ending_of_feedAll he] at hcontinues
          exact absurd hcontinues (addOperator_stops hop).1
        · exact ⟨e', bind_eq_ok.2 ⟨e, he, bind_eq_ok.2 ⟨e', feed_eq_ok.2 hop, rfl⟩⟩⟩

theorem finish_ok_iff : (∃ cs, e.finish = .ok cs) ↔ e.ending = .literal := by
  rw [finish]
  split <;> simp_all

/-- Reading succeeds just for well-formed sequences. -/
theorem read_ok_iff : (∃ cs, read junction xs = .ok cs) ↔ WellFormed xs := by
  have hliteral {last : Option (Symbol α)} : endingOf last = .literal ↔ ∃ a, last = some (.literal a) := by
    rcases last with _ | ⟨_ | _⟩ <;> simp [endingOf]
  have hnegation {last : Option (Symbol α)} :
      endingOf last = .operator .not ↔ last = some (.operator .not) := by
    rcases last with _ | ⟨_ | _⟩ <;> simp [endingOf]
  constructor
  · rintro ⟨cs, h⟩
    obtain ⟨e, he, hfinish⟩ := bind_eq_ok.1 h
    have hplaced := (feedAll_ok_iff junction xs).1 ⟨e, he⟩
    refine ⟨fun before op after hxs hop => ?_, fun before after hxs => ?_, ?_⟩
    · have hcontinues := hplaced before op after hxs
      cases op with
      | not => exact absurd rfl hop
      | and | or => exact hliteral.1 hcontinues
    · exact mt hnegation.2 (hplaced before .not after hxs)
    · rw [← hliteral, ← ending_of_feedAll he]
      exact finish_ok_iff.1 ⟨cs, hfinish⟩
  · intro h
    have hplaced : OperatorsPlaced xs := by
      intro before op after hxs
      cases op with
      | not => exact mt hnegation.1 (h.negated before after hxs)
      | and | or => exact hliteral.2 (h.joined before _ after hxs (by decide))
    obtain ⟨e, he⟩ := (feedAll_ok_iff junction xs).2 hplaced
    obtain ⟨cs, hcs⟩ := finish_ok_iff.2 ((ending_of_feedAll he).trans (hliteral.2 h.ended))
    exact ⟨cs, bind_eq_ok.2 ⟨e, he, hcs⟩⟩

/-- The literals of an expression are those of the symbols read into it. -/
theorem literals_of_feedAll (h : xs.foldlM feed { junction } = .ok e) : e.literals = signed false xs := by
  induction xs using List.reverseRecOn generalizing e with
  | nil =>
    cases h
    rfl
  | append_singleton xs x ih =>
    rw [List.foldlM_append] at h
    obtain ⟨e₁, hxs, hx⟩ := bind_eq_ok.1 h
    obtain ⟨e₂, hfeed, heq⟩ := bind_eq_ok.1 hx
    cases heq
    cases x with
    | literal a =>
      cases hfeed
      rw [literals_addLiteral, ih hxs, ending_of_feedAll hxs, endingOf_ne_not, signed_concat_literal]
    | operator op => rw [literals_addOperator (feed_eq_ok.1 hfeed), ih hxs, signed_concat_operator]

section cutting
variable {cs : List (Conjunction α)} {c l : Conjunction α}

/-- A last conjunction makes no cut before its end. -/
theorem cutAt_concat (hl : l.length < (cs ++ [c]).flatten.length) : CutAt (cs ++ [c]) l ↔ CutAt cs l := by
  constructor
  · rintro ⟨front, back, heq, hfront⟩
    cases back using List.reverseRecOn with
    | nil =>
      rw [List.append_nil] at heq
      rw [heq, hfront] at hl
      exact absurd hl (Nat.lt_irrefl _)
    | append_singleton back d =>
      rw [← List.append_assoc] at heq
      exact ⟨front, back, (List.append_singleton_inj.1 heq).1, hfront⟩
  · rintro ⟨front, back, rfl, hfront⟩
    exact ⟨front, back ++ [c], List.append_assoc front back [c], hfront⟩

theorem closed_close_cases (e : Expression α) :
    e.close.closed = e.closed ∨ e.current ≠ [] ∧ e.close.closed = e.closed ++ [e.current] := by
  by_cases hopen : e.current = []
  · exact .inl (by rw [close, if_pos (List.isEmpty_iff.2 hopen)])
  · exact .inr ⟨hopen, closed_close hopen⟩

theorem closed_closeImplicitly_cases (e : Expression α) :
    e.closeImplicitly.closed = e.closed ∨ e.current ≠ [] ∧ e.closeImplicitly.closed = e.closed ++ [e.current] := by
  rw [closeImplicitly]
  split
  · exact e.closed_close_cases
  · exact .inl rfl

/-- A symbol changes nothing about the conjunctions closed before it; at most it closes one more. -/
theorem closed_feed {x : Symbol α} (h : e.feed x = .ok e') :
    e'.closed = e.closed ∨ e.current ≠ [] ∧ e'.closed = e.closed ++ [e.current] := by
  cases x with
  | literal a =>
    cases h
    rw [addLiteral]
    dsimp only
    split
    · exact e.closed_closeImplicitly_cases
    · exact .inl rfl
  | operator op =>
    rcases addOperator_ok (feed_eq_ok.1 h) with ⟨-, rfl⟩ | ⟨-, -, rfl⟩ | ⟨-, -, rfl⟩
    · dsimp only
      split
      · exact e.closed_closeImplicitly_cases
      · exact .inl rfl
    · exact .inl rfl
    · exact e.closed_close_cases

theorem closed_ne_nil_of_feedAll (h : xs.foldlM feed e = .ok e') (hne : ∀ c ∈ e.closed, c ≠ []) :
    ∀ c ∈ e'.closed, c ≠ [] := by
  induction xs generalizing e with
  | nil =>
    cases h
    exact hne
  | cons x rest ih =>
    obtain ⟨e₁, hx, hrest⟩ := bind_eq_ok.1 h
    apply ih hrest
    rcases closed_feed hx with heq | ⟨hopen, heq⟩
    · rwa [heq]
    · rw [heq]
      exact List.forall_mem_append.2 ⟨hne, List.forall_mem_singleton.2 hopen⟩

theorem length_literals_feed {x : Symbol α} (h : e.feed x = .ok e') : e.literals.length ≤ e'.literals.length := by
  cases x with
  | literal a =>
    cases h
    rw [literals_addLiteral, List.length_append]
    exact Nat.le_add_right _ _
  | operator op => rw [literals_addOperator (feed_eq_ok.1 h)]

theorem length_literals_feedAll (h : xs.foldlM feed e = .ok e') : e.literals.length ≤ e'.literals.length := by
  induction xs generalizing e with
  | nil =>
    cases h
    exact Nat.le_refl _
  | cons x rest ih =>
    obtain ⟨e₁, hx, hrest⟩ := bind_eq_ok.1 h
    exact (length_literals_feed hx).trans (ih hrest)

/-- Once more literals have come, it is settled whether there is a cut before them. -/
theorem cutAt_feedAll (h : xs.foldlM feed e = .ok e') (hl : l.length < e.literals.length) :
    CutAt e'.closed l ↔ CutAt e.closed l := by
  induction xs generalizing e with
  | nil =>
    cases h
    exact Iff.rfl
  | cons x rest ih =>
    obtain ⟨e₁, hx, hrest⟩ := bind_eq_ok.1 h
    rw [ih hrest (hl.trans_le (length_literals_feed hx))]
    rcases closed_feed hx with heq | ⟨-, heq⟩
    · rw [heq]
    · rw [heq, cutAt_concat (by simpa [literals] using hl)]

end cutting

section gaps
variable {op : Operator} {gap : List Operator}

/-- Behind an operator only a negation may stand before the next literal, and nothing behind a negation. -/
theorem feed_behind_operator (hop : e.ending = .operator op) (h : (gap.map .operator).foldlM feed e = .ok e') :
    e'.closed = e.closed ∧ (∃ last, e'.ending = .operator last) ∧ (gap = [] ∨ (gap = [.not] ∧ op ≠ .not)) := by
  cases gap with
  | nil =>
    cases h
    exact ⟨rfl, ⟨op, hop⟩, .inl rfl⟩
  | cons next others =>
    obtain ⟨e₁, hnext, hothers⟩ := bind_eq_ok.1 h
    rw [feed_eq_ok] at hnext
    obtain ⟨hcontinues, hending⟩ := addOperator_continues hnext
    rw [hop] at hcontinues
    cases next with
    | and | or => cases hcontinues
    | not =>
      cases others with
      | nil =>
        cases hothers
        refine ⟨?_, ⟨.not, hending⟩, .inr ⟨rfl, fun hnot => hcontinues (hnot ▸ rfl)⟩⟩
        rcases addOperator_ok hnext with ⟨-, rfl⟩ | ⟨hnot, -⟩ | ⟨hnot, -⟩
        · rw [hop]
          rfl
        · cases hnot
        · cases hnot
      | cons third others =>
        obtain ⟨e₂, hthird, -⟩ := bind_eq_ok.1 hothers
        have hcontinues := (addOperator_continues (feed_eq_ok.1 hthird)).1
        rw [hending] at hcontinues
        cases third with
        | and | or => cases hcontinues
        | not => exact absurd rfl hcontinues

/-- The conjunction before a gap is closed when the literal behind the gap comes, if the gap separates, and goes on
otherwise. -/
theorem closed_behind_gap (hliteral : e.ending = .literal) (h : (gap.map .operator).foldlM feed e = .ok e') (b : α) :
    (Separates e.junction gap → (e'.addLiteral b).closed = e.close.closed) ∧
      (¬Separates e.junction gap → (e'.addLiteral b).closed = e.closed) := by
  have himplicitly : (e.junction = .or → e.closeImplicitly.closed = e.close.closed) ∧
      (e.junction ≠ .or → e.closeImplicitly.closed = e.closed) := by
    unfold closeImplicitly
    exact ⟨fun hor => by rw [if_pos hor], fun hor => by rw [if_neg hor]⟩
  cases gap with
  | nil =>
    cases h
    have hclosed : (e.addLiteral b).closed = e.closeImplicitly.closed := by
      unfold addLiteral
      rw [if_pos hliteral]
    simpa [hclosed, Separates] using himplicitly
  | cons op others =>
    obtain ⟨e₁, hop, hothers⟩ := bind_eq_ok.1 h
    rw [feed_eq_ok] at hop
    obtain ⟨hclosed, ⟨last, hlast⟩, hgap⟩ := feed_behind_operator (addOperator_continues hop).2 hothers
    have hadded : (e'.addLiteral b).closed = e₁.closed := by
      unfold addLiteral
      rw [if_neg (by rw [hlast]; nofun), ← hclosed]
    rw [hadded]
    rcases addOperator_ok hop with ⟨rfl, rfl⟩ | ⟨rfl, -, rfl⟩ | ⟨rfl, -, rfl⟩
    · obtain rfl := hgap.resolve_right fun hnot => hnot.2 rfl
      simpa [hliteral, Separates] using himplicitly
    · have hjoins : ¬Separates e.junction (.and :: others) := by
        rcases hgap with rfl | ⟨rfl, -⟩ <;> simp [Separates]
      exact ⟨fun hs => absurd hs hjoins, fun _ => rfl⟩
    · exact ⟨fun _ => rfl, fun hs => absurd (.inl List.mem_cons_self) hs⟩

end gaps

/-- The literals before a gap are cut off from those behind it just if the gap separates. -/
theorem cutAt_gap {before after : List (Symbol α)} {a b : α} {gap : List Operator}
    (hxs : xs = before ++ .literal a :: (gap.map .operator ++ .literal b :: after))
    (h : xs.foldlM feed { junction } = .ok e) :
    (signed false (before ++ [.literal a])).length < e.literals.length ∧
      (CutAt e.closed (signed false (before ++ [.literal a])) ↔ Separates junction gap) := by
  rw [hxs, List.append_cons, List.foldlM_append] at h
  obtain ⟨e₁, hbefore, h⟩ := bind_eq_ok.1 h
  rw [List.foldlM_append] at h
  obtain ⟨e₂, hgap, h⟩ := bind_eq_ok.1 h
  have hafter : after.foldlM feed (e₂.addLiteral b) = .ok e := h
  have hread : e₁.ReadFrom junction (before ++ [.literal a]) := ReadFrom.nothing.feedAll hbefore
  have hending : e₁.ending = .literal := by
    rw [hread.ending_eq, List.getLast?_concat]
    rfl
  have hopen := hread.current_ne_nil hending
  have hlt : e₁.literals.length < (e₂.addLiteral b).literals.length := by
    rw [literals_addLiteral, List.length_append]
    exact Nat.lt_succ_of_le (length_literals_feedAll hgap)
  rw [← literals_of_feedAll hbefore]
  refine ⟨hlt.trans_le (length_literals_feedAll hafter), ?_⟩
  rw [cutAt_feedAll hafter hlt]
  obtain ⟨hcut, hjoined⟩ := closed_behind_gap hending hgap b
  rw [hread.junction_eq] at hcut hjoined
  constructor
  · rintro ⟨front, back, hclosed, hfront⟩
    by_contra hseparates
    rw [hjoined hseparates] at hclosed
    have hlength := congrArg List.length hfront
    have hpos := List.length_pos_of_ne_nil hopen
    rw [literals, hclosed, List.flatten_append] at hlength
    simp only [List.length_append] at hlength
    omega
  · intro hseparates
    refine ⟨e₁.closed ++ [e₁.current], [], ?_, ?_⟩
    · rw [hcut hseparates, closed_close hopen, List.append_nil]
    · rw [List.flatten_append, List.flatten_singleton, literals]

/-- What is read is the disjunctive form of the sequence. -/
theorem disjunctiveForm_of_read {cs : List (Conjunction α)} (h : read junction xs = .ok cs) :
    DisjunctiveForm junction xs cs := by
  obtain ⟨e, he, hfinish⟩ := bind_eq_ok.1 h
  have hread : e.ReadFrom junction xs := ReadFrom.nothing.feedAll he
  have hending := finish_ok_iff.1 ⟨cs, hfinish⟩
  have hopen := hread.current_ne_nil hending
  have hflatten := literals_finish hfinish
  have hcs : cs = e.closed ++ [e.current] := by
    rw [finish, if_pos hending, closed_close hopen] at hfinish
    exact (Except.ok.inj hfinish).symm
  refine ⟨by rw [hflatten, literals_of_feedAll he], ?_, ?_⟩
  · rw [hcs]
    exact List.forall_mem_append.2 ⟨closed_ne_nil_of_feedAll he nofun, List.forall_mem_singleton.2 hopen⟩
  · intro before a gap b after hxs
    obtain ⟨hlt, hcut⟩ := cutAt_gap hxs he
    rw [← hcut, hcs]
    apply cutAt_concat
    rwa [← hcs, hflatten]

/-- Reading computes the disjunctive form of just the well-formed sequences. A refused operator leaves the expression
as it was, so that it counts for nothing: going on behind refused operators ends as reading the sequence without them
does. They are those that may not stand behind what was accepted before them. -/
theorem read_disjunctive (junction : Junction) (xs : List (Symbol α)) :
    ((∃ cs, read junction xs = .ok cs) ↔ WellFormed xs) ∧
      (∀ cs, read junction xs = .ok cs → DisjunctiveForm junction xs cs) ∧
      (∀ (e e' : Expression α) op failure, e.addOperator op = (.error failure, e') → e' = e) ∧
      (takeAll { junction } xs).finish = read junction (accepted { junction } xs) ∧
      accepted { junction } xs = kept .nothing xs := by
  refine ⟨read_ok_iff, fun _ => disjunctiveForm_of_read, fun _ _ _ _ h => (addOperator_stops h).2.2, ?_,
    accepted_eq_kept _ xs⟩
  rw [read, feed_accepted]
  rfl

/-- A cut at a disjunction, one where a disjunction is understood before a negation, and none at a conjunction. -/
def negatedLast : List (Symbol Nat) :=
  [.literal 1, .operator .or, .literal 2, .operator .and, .literal 3, .operator .not, .literal 4]

theorem negatedLast_read_disjunctive :
    read .or negatedLast = .ok [[(1, true)], [(2, true), (3, true)], [(4, false)]] ∧ WellFormed negatedLast ∧
      DisjunctiveForm .or negatedLast [[(1, true)], [(2, true), (3, true)], [(4, false)]] ∧
      (takeAll { junction := .or } negatedLast).finish =
        read .or (accepted { junction := .or } negatedLast) ∧
      accepted { junction := .or } negatedLast = kept .nothing negatedLast := by
  have hread : read .or negatedLast = .ok [[(1, true)], [(2, true), (3, true)], [(4, false)]] := rfl
  obtain ⟨hwellFormed, hform, -, hfinish, haccepted⟩ := read_disjunctive .or negatedLast
  exact ⟨hread, hwellFormed.1 ⟨_, hread⟩, hform _ hread, hfinish, haccepted⟩

/-- A conjunction that opens a sequence is refused, and so is a negation behind a negation. -/
example : kept .nothing [.operator .and, .literal 1, .operator .not, .operator .not, .literal 2] =
    ([.literal 1, .operator .not, .literal 2] : List (Symbol Nat)) := rfl

end TextSearch.Expression
