import Mathlib.Data.List.Induction
import TextSearch.Proofs.Levels

/-! Expressions of literals and operators: the conjunctions they stand for, and that reading them finds these. -/
namespace TextSearch

/-- The operator that joins literals without an operator between them. -/
def Operator.ofJunction : Junction → Operator
  | .and => .and
  | .or => .or

namespace Expression

/-- What an expression is written with. -/
inductive Symbol (α : Type) where
  | literal (a : α)
  | operator (op : Operator)

namespace Symbol

variable {α : Type}

def isLiteral : Symbol α → Bool
  | literal _ => true
  | operator _ => false

def isOr : Symbol α → Bool
  | operator .or => true
  | _ => false

def negates : Symbol α → Bool
  | operator .not => true
  | _ => false

/-- A literal is an operand, with a negation before it or without. -/
def startsOperand (x : Symbol α) : Bool := x.isLiteral || x.negates

/-- The same symbol with another literal. -/
def map {β : Type} (f : α → β) : Symbol α → Symbol β
  | literal a => literal (f a)
  | operator op => operator op

@[simp] theorem isLiteral_map {β : Type} (f : α → β) (x : Symbol α) : (x.map f).isLiteral = x.isLiteral := by
  cases x <;> rfl

@[simp] theorem isOr_map {β : Type} (f : α → β) (x : Symbol α) : (x.map f).isOr = x.isOr := by
  rcases x with _ | ⟨_ | _ | _⟩ <;> rfl

@[simp] theorem startsOperand_map {β : Type} (f : α → β) (x : Symbol α) :
    (x.map f).startsOperand = x.startsOperand := by
  rcases x with _ | ⟨_ | _ | _⟩ <;> rfl

/-- Writes the operator that is understood where an operand directly follows a literal. -/
def writeOut (junction : Junction) (afterLiteral : Bool) : List (Symbol α) → List (Symbol α)
  | [] => []
  | x :: rest =>
    let written := x :: writeOut junction x.isLiteral rest
    if afterLiteral && x.startsOperand then operator (.ofJunction junction) :: written else written

/-- The literals in order, each positive unless a negation stands directly before it. -/
def signed (negated : Bool) : List (Symbol α) → Conjunction α
  | [] => []
  | literal a :: rest => (a, !negated) :: signed false rest
  | operator op :: rest => signed (op == .not) rest

theorem writeOut_concat (junction : Junction) (afterLiteral : Bool) (xs : List (Symbol α)) (x : Symbol α) :
    writeOut junction afterLiteral (xs ++ [x]) = writeOut junction afterLiteral xs ++
      writeOut junction (xs.getLast?.elim afterLiteral isLiteral) [x] := by
  induction xs generalizing afterLiteral with
  | nil => rfl
  | cons y ys ih =>
    have hlast : (y :: ys).getLast?.elim afterLiteral isLiteral = ys.getLast?.elim y.isLiteral isLiteral := by
      rw [List.getLast?_cons]
      cases ys.getLast? <;> rfl
    rw [hlast, List.cons_append, writeOut, writeOut, ih]
    split <;> rfl

theorem writeOut_joining {junction : Junction} {afterLiteral : Bool} {xs : List (Symbol α)} {x : Symbol α}
    (hx : x.startsOperand = false) :
    writeOut junction afterLiteral (xs ++ [x]) = writeOut junction afterLiteral xs ++ [x] := by
  rw [writeOut_concat, writeOut, hx, Bool.and_false]
  rfl

theorem getLast?_writeOut (junction : Junction) (afterLiteral : Bool) (xs : List (Symbol α)) :
    (writeOut junction afterLiteral xs).getLast? = xs.getLast? := by
  cases xs using List.reverseRecOn with
  | nil => rfl
  | append_singleton xs x =>
    rw [writeOut_concat, writeOut]
    split <;> simp [writeOut]

theorem signed_concat_operator (negated : Bool) (xs : List (Symbol α)) (op : Operator) :
    signed negated (xs ++ [operator op]) = signed negated xs := by
  induction xs generalizing negated with
  | nil => rfl
  | cons x xs ih => cases x <;> simp [signed, ih]

theorem signed_concat_literal (negated : Bool) (xs : List (Symbol α)) (a : α) :
    signed negated (xs ++ [literal a]) =
      signed negated xs ++ [(a, !xs.getLast?.elim negated negates)] := by
  induction xs generalizing negated with
  | nil => rfl
  | cons x xs ih =>
    have hlast : (x :: xs).getLast?.elim negated negates = xs.getLast?.elim x.negates negates := by
      rw [List.getLast?_cons]
      cases xs.getLast? <;> rfl
    rw [hlast, List.cons_append]
    cases x with
    | literal b => simp [signed, ih, negates]
    | operator op =>
      have hnegates : (operator op : Symbol α).negates = (op == .not) := by cases op <;> rfl
      rw [hnegates, signed, signed, ih]

end Symbol

open Expression.Symbol

variable {α : Type}

/-- The conjunctions of an expression, with all operators written out: its parts between disjunctions. -/
def alternatives (junction : Junction) (xs : List (Symbol α)) : List (Conjunction α) :=
  ((writeOut junction false xs).splitOnP isOr).map (signed false)

section splitting
variable {p : α → Bool} {xs : List α} {closed : List (List α)} {last : List α} {x : α}

/-- What is appended goes into the last piece, unless it separates pieces. -/
theorem exists_splitOnP (p : α → Bool) (xs : List α) : ∃ closed last, xs.splitOnP p = closed ++ [last] ∧
    ∀ x, p x = false → (xs ++ [x]).splitOnP p = closed ++ [last ++ [x]] := by
  induction xs with
  | nil => exact ⟨[], [], rfl, fun x hx => List.splitOnP_eq_singleton (by simpa using hx)⟩
  | cons y ys ih =>
    obtain ⟨closed, last, hys, hconcat⟩ := ih
    simp only [List.cons_append, List.splitOnP_cons_eq_if_modifyHead, hys]
    by_cases hy : p y = true
    · refine ⟨[] :: closed, last, if_pos hy, fun x hx => ?_⟩
      rw [if_pos hy, hconcat x hx, List.cons_append]
    · simp only [if_neg hy]
      cases closed with
      | nil => exact ⟨[], y :: last, rfl, fun x hx => by rw [hconcat x hx]; rfl⟩
      | cons first others => exact ⟨(y :: first) :: others, last, rfl, fun x hx => by rw [hconcat x hx]; rfl⟩

theorem splitOnP_concat_of_pos (h : xs.splitOnP p = closed ++ [last]) (hx : p x = true) :
    (xs ++ [x]).splitOnP p = (closed ++ [last]) ++ [[]] := by
  rw [List.splitOnP_append_cons xs [] hx, h, List.splitOnP_nil]

theorem splitOnP_concat_of_neg (h : xs.splitOnP p = closed ++ [last]) (hx : p x = false) :
    (xs ++ [x]).splitOnP p = closed ++ [last ++ [x]] := by
  obtain ⟨pieces, piece, hpieces, hconcat⟩ := exists_splitOnP p xs
  obtain ⟨rfl, rfl⟩ := List.append_singleton_inj.1 (h.symm.trans hpieces)
  exact hconcat x hx

end splitting

section reading
variable {junction : Junction} {written xs : List (Symbol α)} {e e' : Expression α} {cs : List (Conjunction α)}

@[simp] theorem junction_close : e.close.junction = e.junction := by
  unfold close
  split <;> rfl

@[simp] theorem junction_closeImplicitly : e.closeImplicitly.junction = e.junction := by
  unfold closeImplicitly
  split <;> simp

theorem closed_close (h : e.current ≠ []) : e.close.closed = e.closed ++ [e.current] := by
  unfold close
  rw [if_neg (by simpa using h)]

/-- What an operator does to an expression that takes it. -/
theorem addOperator_ok {op : Operator} (h : e.addOperator op = (.ok (), e')) :
    op = .not ∧ e' = { (if e.ending = .literal then e.closeImplicitly else e) with ending := .operator .not } ∨
      op = .and ∧ e.ending = .literal ∧ e' = { e with ending := .operator .and } ∨
      op = .or ∧ e.ending = .literal ∧ e' = { e.close with ending := .operator .or } := by
  unfold addOperator at h
  split at h
  · rename_i hl
    cases h
    exact .inr (.inl ⟨rfl, hl, rfl⟩)
  · rename_i hl
    cases h
    exact .inr (.inr ⟨rfl, hl, rfl⟩)
  · rename_i hl
    cases h
    rw [if_pos hl]
    exact .inl ⟨rfl, rfl⟩
  · cases h
  · rename_i hl _
    cases h
    rw [if_neg hl]
    exact .inl ⟨rfl, rfl⟩
  · cases h

/-- An expression has the conjunctions of what is written, of which the last one is open. -/
def Represents (e : Expression α) (written : List (Symbol α)) : Prop :=
  ∃ closed last, written.splitOnP isOr = closed ++ [last] ∧
    e.closed = closed.map (signed false) ∧ e.current = signed false last

theorem Represents.operator (h : e.Represents written) {op : Operator} (hop : op ≠ .or) :
    e.Represents (written ++ [.operator op]) := by
  obtain ⟨closed, last, hsplit, hclosed, hcurrent⟩ := h
  have hjoins : (Symbol.operator op : Symbol α).isOr = false := by
    cases op with
    | or => exact (hop rfl).elim
    | _ => rfl
  exact ⟨closed, _, splitOnP_concat_of_neg hsplit hjoins, hclosed, by rw [hcurrent, signed_concat_operator]⟩

theorem Represents.close (h : e.Represents written) (hopen : e.current ≠ []) :
    e.close.Represents (written ++ [.operator .or]) := by
  obtain ⟨closed, last, hsplit, hclosed, hcurrent⟩ := h
  refine ⟨_, _, splitOnP_concat_of_pos hsplit rfl, ?_, e.current_close⟩
  rw [closed_close hopen, hclosed, hcurrent, List.map_append]
  rfl

theorem Represents.closeImplicitly (h : e.Represents written) (hopen : e.current ≠ []) :
    e.closeImplicitly.Represents (written ++ [.operator (.ofJunction e.junction)]) := by
  unfold Expression.closeImplicitly
  cases hj : e.junction with
  | or =>
    rw [if_pos rfl]
    exact h.close hopen
  | and =>
    rw [if_neg nofun]
    exact h.operator nofun

/-- What stands last stands last in the open conjunction, unless that is empty. -/
private theorem negates_last {closed : List (List (Symbol α))} {last : List (Symbol α)}
    (h : written.splitOnP isOr = closed ++ [last]) :
    last.getLast?.elim false negates = written.getLast?.elim false negates := by
  cases written using List.reverseRecOn with
  | nil =>
    obtain ⟨-, rfl⟩ := List.append_singleton_inj.1 (show closed ++ [last] = [] ++ [[]] from h.symm)
    rfl
  | append_singleton written x =>
    obtain ⟨pieces, piece, hwritten, -⟩ := exists_splitOnP isOr written
    rw [List.getLast?_concat]
    cases hx : x.isOr with
    | true =>
      rw [splitOnP_concat_of_pos hwritten hx] at h
      obtain ⟨-, rfl⟩ := List.append_singleton_inj.1 h.symm
      unfold isOr at hx
      split at hx
      · rfl
      · cases hx
    | false =>
      rw [splitOnP_concat_of_neg hwritten hx] at h
      obtain ⟨-, rfl⟩ := List.append_singleton_inj.1 h.symm
      rw [List.getLast?_concat]

theorem Represents.literal (h : e.Represents written) (a : α) (ending : Ending) :
    Represents { e with current := e.current ++ [(a, !written.getLast?.elim false negates)], ending }
      (written ++ [.literal a]) := by
  obtain ⟨closed, last, hsplit, hclosed, hcurrent⟩ := h
  refine ⟨closed, _, splitOnP_concat_of_neg hsplit rfl, hclosed, ?_⟩
  rw [signed_concat_literal, negates_last hsplit, ← hcurrent]

/-- How an expression ends whose last symbol is that, if it has any. -/
def endingOf : Option (Symbol α) → Ending
  | none => .nothing
  | some (.literal _) => .literal
  | some (.operator op) => .operator op

theorem endingOf_eq_literal {last : Option (Symbol α)} :
    endingOf last = .literal ↔ last.elim false isLiteral = true := by
  rcases last with _ | ⟨_ | _⟩ <;> simp [endingOf, isLiteral]

theorem endingOf_ne_not {last : Option (Symbol α)} :
    (endingOf last != .operator .not) = !last.elim false negates := by
  rcases last with _ | ⟨a⟩ | ⟨_ | _ | _⟩ <;> rfl

/-- What is known of an expression into which symbols were read. -/
structure ReadFrom (junction : Junction) (xs : List (Symbol α)) (e : Expression α) : Prop where
  junction_eq : e.junction = junction
  ending_eq : e.ending = endingOf xs.getLast?
  represents : e.Represents (writeOut junction false xs)
  current_ne_nil : e.ending = .literal → e.current ≠ []

namespace ReadFrom

theorem nothing : ({ junction } : Expression α).ReadFrom junction [] where
  junction_eq := rfl
  ending_eq := rfl
  represents := ⟨[], [], rfl, rfl, rfl⟩
  current_ne_nil := nofun

/-- What an operand is added to: the operator before it is written where it is understood. -/
theorem operand (h : e.ReadFrom junction xs) {x : Symbol α} (hx : x.startsOperand = true) :
    ∃ written, writeOut junction false (xs ++ [x]) = written ++ [x] ∧
      (if e.ending = .literal then e.closeImplicitly else e).Represents written ∧
      (e.ending != .operator .not) = !written.getLast?.elim false negates := by
  have hlast : e.ending = .literal ↔ xs.getLast?.elim false isLiteral = true := by
    rw [h.ending_eq, endingOf_eq_literal]
  rw [writeOut_concat, writeOut, writeOut, hx, Bool.and_true]
  by_cases hl : e.ending = .literal
  · have hrep := h.represents.closeImplicitly (h.current_ne_nil hl)
    rw [h.junction_eq] at hrep
    refine ⟨_, by rw [if_pos (hlast.1 hl), List.append_cons], by rwa [if_pos hl], ?_⟩
    rw [List.getLast?_concat, hl]
    cases junction <;> rfl
  · refine ⟨_, by rw [if_neg (mt hlast.2 hl)], by rw [if_neg hl]; exact h.represents, ?_⟩
    rw [getLast?_writeOut, h.ending_eq, endingOf_ne_not]

theorem addLiteral (h : e.ReadFrom junction xs) (a : α) :
    (e.addLiteral a).ReadFrom junction (xs ++ [.literal a]) := by
  obtain ⟨written, hwritten, hrep, hpositive⟩ := h.operand (x := .literal a) rfl
  refine ⟨?_, ?_, ?_, fun _ => ?_⟩
  · unfold Expression.addLiteral
    split <;> simp [h.junction_eq]
  · rw [List.getLast?_concat]
    rfl
  · rw [hwritten]
    have hadded := hrep.literal a .literal
    rwa [← hpositive] at hadded
  · simp [Expression.addLiteral]

theorem addOperator (h : e.ReadFrom junction xs) {op : Operator} (hadd : e.addOperator op = (.ok (), e')) :
    e'.ReadFrom junction (xs ++ [.operator op]) := by
  have hlast : (xs ++ [Symbol.operator op]).getLast? = some (.operator op) := List.getLast?_concat
  rcases addOperator_ok hadd with ⟨rfl, rfl⟩ | ⟨rfl, hl, rfl⟩ | ⟨rfl, hl, rfl⟩
  · obtain ⟨written, hwritten, hrep, -⟩ := h.operand (x := .operator .not) rfl
    refine ⟨?_, by rw [hlast]; rfl, ?_, nofun⟩
    · dsimp only
      split <;> simp [h.junction_eq]
    · rw [hwritten]
      exact hrep.operator nofun
  · refine ⟨h.junction_eq, by rw [hlast]; rfl, ?_, nofun⟩
    rw [writeOut_joining rfl]
    exact h.represents.operator nofun
  · refine ⟨by simp [h.junction_eq], by rw [hlast]; rfl, ?_, nofun⟩
    rw [writeOut_joining rfl]
    exact h.represents.close (h.current_ne_nil hl)

end ReadFrom

/-- Adds a symbol to an expression. With the outcome comes the expression as it is then. -/
def take (e : Expression α) : Symbol α → Except Error Unit × Expression α
  | .literal a => (.ok (), e.addLiteral a)
  | .operator op => e.addOperator op

/-- Adds a symbol to an expression that is given up at the first failure. -/
def feed (e : Expression α) (x : Symbol α) : Except Error (Expression α) :=
  match e.take x with
  | (.ok (), e') => .ok e'
  | (.error failure, _) => .error failure

theorem feed_eq_ok {x : Symbol α} : e.feed x = .ok e' ↔ e.take x = (.ok (), e') := by
  rw [feed]
  split <;> simp_all

theorem ReadFrom.feed (h : e.ReadFrom junction xs) {x : Symbol α} (hx : e.feed x = .ok e') :
    e'.ReadFrom junction (xs ++ [x]) := by
  rw [feed_eq_ok] at hx
  cases x with
  | literal a =>
    cases hx
    exact h.addLiteral a
  | operator op => exact h.addOperator hx

theorem ReadFrom.feedAll (h : e.ReadFrom junction xs) {ys : List (Symbol α)}
    (hys : ys.foldlM Expression.feed e = .ok e') : e'.ReadFrom junction (xs ++ ys) := by
  induction ys generalizing e xs with
  | nil =>
    cases hys
    rwa [List.append_nil]
  | cons y ys ih =>
    obtain ⟨e₁, hy, hys⟩ := bind_eq_ok.1 hys
    rw [List.append_cons]
    exact ih (h.feed hy) hys

/-- An expression that is read to its end has the conjunctions it stands for. -/
theorem finish_alternatives (h : xs.foldlM Expression.feed { junction } = .ok e) (hfinish : e.finish = .ok cs) :
    cs = alternatives junction xs := by
  have hread : e.ReadFrom junction xs := ReadFrom.nothing.feedAll h
  unfold finish at hfinish
  split at hfinish
  · rename_i hl
    cases hfinish
    obtain ⟨closed, last, hsplit, hclosed, hcurrent⟩ := hread.represents
    rw [closed_close (hread.current_ne_nil hl), hclosed, hcurrent, alternatives, hsplit, List.map_append]
    rfl
  · cases hfinish

/-- A literal counts unless its conjunction is of negations alone. -/
def Counts (junction : Junction) (xs : List (Symbol α)) (a : α) : Prop :=
  ∃ c ∈ alternatives junction xs, (∃ l ∈ c, l.2 = true) ∧ ∃ l ∈ c, l.1 = a

section other_literals
variable {β : Type} (f : α → β)

theorem splitOnP_map (p : β → Bool) (xs : List α) :
    (xs.map f).splitOnP p = (xs.splitOnP (p ∘ f)).map (List.map f) := by
  induction xs with
  | nil => rfl
  | cons x xs ih =>
    rw [List.map_cons, List.splitOnP_cons_eq_if_modifyHead, List.splitOnP_cons_eq_if_modifyHead, ih]
    cases xs.splitOnP (p ∘ f) <;> by_cases hx : p (f x) = true <;> simp [hx]

theorem writeOut_map (junction : Junction) (afterLiteral : Bool) (xs : List (Symbol α)) :
    writeOut junction afterLiteral (xs.map (Symbol.map f)) =
      (writeOut junction afterLiteral xs).map (Symbol.map f) := by
  induction xs generalizing afterLiteral with
  | nil => rfl
  | cons x xs ih =>
    rw [List.map_cons, writeOut, writeOut, ih, isLiteral_map, startsOperand_map]
    split <;> rfl

theorem signed_map (negated : Bool) (xs : List (Symbol α)) :
    signed negated (xs.map (Symbol.map f)) = (signed negated xs).map fun l => (f l.1, l.2) := by
  induction xs generalizing negated with
  | nil => rfl
  | cons x xs ih => cases x <;> simp [signed, Symbol.map, ih]

/-- Which conjunctions an expression has does not depend on what its literals are. -/
theorem alternatives_map (junction : Junction) (xs : List (Symbol α)) :
    alternatives junction (xs.map (Symbol.map f)) =
      (alternatives junction xs).map (List.map fun l => (f l.1, l.2)) := by
  have hor : isOr ∘ Symbol.map f = isOr := funext (isOr_map f)
  have hsigned : signed false ∘ List.map (Symbol.map f) =
      List.map (fun l => (f l.1, l.2)) ∘ signed false := funext (signed_map f false)
  rw [alternatives, alternatives, writeOut_map, splitOnP_map, hor, List.map_map, List.map_map, hsigned]

theorem counts_map {xs : List (Symbol α)} {b : β} :
    Counts junction (xs.map (Symbol.map f)) b ↔ ∃ a, f a = b ∧ Counts junction xs a := by
  rw [Counts, alternatives_map]
  constructor
  · rintro ⟨_, hmapped, ⟨_, hpositive, hsign⟩, _, hliteral, rfl⟩
    obtain ⟨c, hc, rfl⟩ := List.mem_map.1 hmapped
    obtain ⟨l, hl, rfl⟩ := List.mem_map.1 hpositive
    obtain ⟨m, hm, rfl⟩ := List.mem_map.1 hliteral
    exact ⟨m.1, rfl, c, hc, ⟨l, hl, hsign⟩, m, hm, rfl⟩
  · rintro ⟨_, rfl, c, hc, ⟨l, hl, hpositive⟩, m, hm, rfl⟩
    exact ⟨_, List.mem_map_of_mem hc, ⟨_, List.mem_map_of_mem hl, hpositive⟩, _, List.mem_map_of_mem hm, rfl⟩

end other_literals

example : alternatives .or [.literal 1, .operator .or, .literal 2, .operator .and, .literal 3, .operator .not,
    .literal 4] = [[(1, true)], [(2, true), (3, true)], [(4, false)]] := by decide

end reading
end Expression

/-- The symbol an item of a level is. -/
def Item.symbol : Item → Expression.Symbol Entry
  | .entry e _ => .literal e
  | .operator op _ => .operator op

namespace Scope

theorem readExpression_feeds {e e' : Expression Entry} {items : List Item} (h : readExpression e items = .ok e') :
    (items.map Item.symbol).foldlM Expression.feed e = .ok e' := by
  induction items generalizing e with
  | nil => exact h
  | cons item rest ih =>
    cases item with
    | entry entry sign => exact ih h
    | operator op position =>
      rw [readExpression] at h
      split at h
      · cases h
      rename_i e₁ hop
      exact bind_eq_ok.2 ⟨e₁, Expression.feed_eq_ok.2 hop, ih h⟩

/-- An entry that the query of the level depends on. -/
def Counts (s : Scope) (entry : Entry) : Prop :=
  if s.style = some .operators then Expression.Counts s.junction (s.items.map Item.symbol) entry
  else ∃ sign, Item.entry entry sign ∈ s.items

variable {s : Scope}

/-- A level with a query has one for each entry it depends on. -/
theorem Counts.toQuery {entry : Entry} (h : s.Counts entry) {query : Query} (hq : s.toQuery = .ok query) :
    ∃ q, entry.toQuery = .ok q := by
  unfold Counts at h
  unfold Scope.toQuery at hq
  split at h
  · rename_i ho
    rw [if_pos ho] at hq
    obtain ⟨e, cs, queries, hread, hfinish, hqueries, -⟩ := expressionQuery_ok hq
    obtain ⟨c, hc, hpositive, literal, hl, rfl⟩ := h
    rw [← Expression.finish_alternatives (readExpression_feeds hread) hfinish] at hc
    exact conjunctionQueries_literals hqueries hc hpositive literal hl
  · rename_i ho
    rw [if_neg ho] at hq
    obtain ⟨sign, hm⟩ := h
    obtain ⟨clauses, hclauses, -⟩ := Lexeme.map_eq_ok.1 hq
    exact signedClauses_entries hclauses hm

/-- An expression that is read fails for an entry it depends on. -/
theorem exists_counts_of_conjunctionQueries {y : Expression Entry} {cs : List (Conjunction Entry)} {e : Error}
    (ho : s.style = some .operators) (hread : readExpression { junction := s.junction } s.items = .ok y)
    (hfinish : y.finish = .ok cs) (h : conjunctionQueries cs = .error e) :
    ∃ entry, s.Counts entry ∧ entry.toQuery = .error e := by
  obtain ⟨c, hc, hpositive, literal, hl, he⟩ := conjunctionQueries_error h
  rw [Expression.finish_alternatives (readExpression_feeds hread) hfinish] at hc
  refine ⟨literal.1, ?_, he⟩
  rw [Counts, if_pos ho]
  exact ⟨c, hc, hpositive, literal, hl, rfl⟩

end Scope

end TextSearch
