import TextSearch.Error

/-! Kinds of failures, by what is wrong with a query string. -/
namespace TextSearch

/-- Failures of a query string that is no list of lexemes. -/
inductive Error.Lexical : Error → Prop where
  | lexical (message : String) (position : Nat) : Lexical (.lexical message position)

/-- Failures about how a query is written. -/
inductive Error.Syntactic : Error → Prop where
  | syntactic (message : String) (position : Option Nat) : Syntactic (.syntactic message position)

theorem Error.Syntactic.locate {e : Error} (h : e.Syntactic) (position : Nat) :
    (e.locate position).Syntactic := by
  cases h with
  | syntactic message p => cases p <;> exact .syntactic _ _

/-- Failures about what a query means, not about how it is written. -/
inductive Error.Refusal : Error → Prop where
  | semantic (message : String) : Refusal (.semantic message)
  | unauthorized (field : String) (allowed : List String) : Refusal (.unauthorized field allowed)

/-- Failures of an operation on a query that cannot have it. -/
inductive Error.Unsupported : Error → Prop where
  | unsupported (message : String) : Unsupported (.unsupported message)

theorem Error.Refusal.not_syntactic {e : Error} (h : e.Refusal) : ¬e.Syntactic := by
  cases h <;> nofun

theorem Error.Refusal.locate {e : Error} (h : e.Refusal) (position : Nat) : e.locate position = e := by
  cases h <;> rfl

@[simp] theorem Error.locate_locate (e : Error) (p q : Nat) :
    (e.locate p).locate q = e.locate p := by
  cases e with
  | syntactic text position => cases position <;> rfl
  | _ => rfl

theorem map_eq_error {ε α β : Type} {f : α → β} {x : Except ε α} {e : ε} :
    x.map f = .error e ↔ x = .error e := by
  cases x <;> simp [Except.map]

theorem toOption_eq_some {ε α : Type} {x : Except ε α} {a : α} : x.toOption = some a ↔ x = .ok a := by
  cases x <;> simp [Except.toOption]

/-- The failure of a result that is one. -/
def failure? {ε α : Type} : Except ε α → Option ε
  | .ok _ => none
  | .error e => some e

theorem failure?_eq_some {ε α : Type} {x : Except ε α} {e : ε} : failure? x = some e ↔ x = .error e := by
  cases x <;> simp [failure?]

theorem bind_eq_ok {ε α β : Type} {f : α → Except ε β} {x : Except ε α} {b : β} :
    x.bind f = .ok b ↔ ∃ a, x = .ok a ∧ f a = .ok b := by
  cases x <;> simp [Except.bind]

theorem foldlM_append_eq_ok {ε α β : Type} {f : β → α → Except ε β} {xs ys : List α} {b c : β} :
    (xs ++ ys).foldlM f b = .ok c ↔ ∃ b', xs.foldlM f b = .ok b' ∧ ys.foldlM f b' = .ok c := by
  rw [List.foldlM_append]
  exact bind_eq_ok

/-- A run that fails does so at one of its items, behind others that do not. -/
theorem foldlM_eq_error {ε α β : Type} {f : β → α → Except ε β} {xs : List α} {b : β} {e : ε}
    (h : xs.foldlM f b = .error e) :
    ∃ before x after b', before ++ x :: after = xs ∧ before.foldlM f b = .ok b' ∧ f b' x = .error e := by
  induction xs generalizing b with
  | nil => cases h
  | cons x rest ih =>
    rw [List.foldlM_cons] at h
    cases hx : f b x with
    | error e' =>
      rw [hx] at h
      cases h
      exact ⟨[], x, rest, b, rfl, rfl, hx⟩
    | ok b₁ =>
      rw [hx] at h
      obtain ⟨before, y, after, b', rfl, hbefore, hy⟩ := ih h
      refine ⟨x :: before, y, after, b', rfl, ?_, hy⟩
      rw [List.foldlM_cons, hx]
      exact hbefore

end TextSearch
