import Mathlib.Data.List.Basic
import Mathlib.Data.List.Induction
import TextSearch.Proofs.Levels

/-! What can be asked of a level of brackets, one request after the other, some of which it refuses. -/
namespace TextSearch

/-- What can be asked of a level of brackets. -/
inductive Request where
  | setField (field : String)
  | setSign (sign : Occur)
  | addEntry (entry : Entry)
  | addOperator (op : Operator) (position : Nat)
  | loosen (parameter : Option Float32)
  | boost (factor : Float32)

namespace Request

def isEntry : Request → Bool
  | addEntry _ => true
  | _ => false

def sign? : Request → Option Occur
  | setSign sign => some sign
  | _ => none

/-- Requests that change the entry before them. -/
def isModifier : Request → Bool
  | loosen _ | boost _ => true
  | _ => false

theorem of_isModifier {r : Request} (h : r.isModifier = true) : r.isEntry = false ∧ r.sign? = none := by
  cases r with
  | loosen | boost => exact ⟨rfl, rfl⟩
  | _ => cases h

/-- The last sign set since the last entry was added. -/
def lastSign (requests : List Request) : Option Occur :=
  (requests.reverse.takeWhile fun r => !r.isEntry).findSome? sign?

theorem lastSign_concat (requests : List Request) (r : Request) :
    lastSign (requests ++ [r]) = if r.isEntry then none else r.sign?.or (lastSign requests) := by
  rw [lastSign, List.reverse_append, List.reverse_singleton, List.singleton_append, List.takeWhile_cons]
  cases r.isEntry with
  | true => rfl
  | false =>
    rw [Bool.not_false, if_pos rfl, List.findSome?_cons, lastSign]
    cases r.sign? <;> rfl

section running
variable {σ τ : Type} (perform : σ → Request → Except Error σ) (perform' : τ → Request → Except Error τ)

/-- A refused request changes nothing. -/
def attempt (s : σ) (r : Request) : σ := (perform s r).toOption.getD s

def after (s : σ) (requests : List Request) : σ := requests.foldl (attempt perform) s

/-- The requests that are not refused. -/
def accepted (s : σ) : List Request → List Request
  | [] => []
  | r :: rest =>
    match perform s r with
    | .ok s' => r :: accepted s' rest
    | .error _ => accepted s rest

variable {perform perform'} {s : σ}

theorem accepted_concat (requests : List Request) (r : Request) :
    accepted perform s (requests ++ [r]) =
      accepted perform s requests ++ accepted perform (after perform s requests) [r] := by
  induction requests generalizing s with
  | nil => rfl
  | cons first rest ih =>
    rw [List.cons_append, accepted, accepted, after, List.foldl_cons, attempt]
    cases perform s first with
    | ok s' => exact congrArg (first :: ·) ih
    | error e => exact ih

/-- What holds at the start and is kept by each accepted request holds after all requests. -/
theorem run_induction {P : σ → List Request → Prop} (start : P s [])
    (step : ∀ s₁ done r s₂, P s₁ done → perform s₁ r = .ok s₂ → P s₂ (done ++ [r])) (requests : List Request) :
    P (after perform s requests) (accepted perform s requests) := by
  induction requests using List.reverseRecOn with
  | nil => exact start
  | append_singleton requests r ih =>
    rw [accepted_concat, after, List.foldl_append, List.foldl_cons, List.foldl_nil, ← after, attempt, accepted]
    cases h : perform (after perform s requests) r with
    | ok s' => exact step _ _ r s' ih h
    | error e =>
      rw [accepted, List.append_nil]
      exact ih

/-- Where entries are never refused, all of them are accepted, in their order. -/
theorem accepted_filter (hentry : ∀ s entry, ∃ s', perform s (.addEntry entry) = .ok s') (requests : List Request) :
    (accepted perform s requests).filter isEntry = requests.filter isEntry := by
  induction requests generalizing s with
  | nil => rfl
  | cons r rest ih =>
    rw [accepted]
    cases hr : perform s r with
    | ok s' =>
      dsimp only
      rw [List.filter_cons, List.filter_cons, ih]
    | error e =>
      cases r with
      | addEntry entry =>
        obtain ⟨s', hs⟩ := hentry s entry
        rw [hs] at hr
        cases hr
      | _ => exact ih

/-- Related states, or the same failure. -/
def Alike (R : σ → τ → Prop) : Except Error σ → Except Error τ → Prop
  | .ok s, .ok t => R s t
  | .error e, .error f => e = f
  | _, _ => False

theorem run_alike {R : σ → τ → Prop} (step : ∀ s t r, R s t → Alike R (perform s r) (perform' t r))
    (requests : List Request) {t : τ} (h : R s t) :
    accepted perform s requests = accepted perform' t requests ∧
      R (after perform s requests) (after perform' t requests) := by
  induction requests generalizing s t with
  | nil => exact ⟨rfl, h⟩
  | cons r rest ih =>
    have hr := step s t r h
    rw [accepted, accepted, after, after, List.foldl_cons, List.foldl_cons, attempt, attempt]
    cases hs : perform s r with
    | ok s' =>
      cases ht : perform' t r with
      | ok t' =>
        rw [hs, ht] at hr
        obtain ⟨haccepted, hafter⟩ := ih hr
        exact ⟨congrArg (r :: ·) haccepted, hafter⟩
      | error e => rw [hs, ht] at hr; exact hr.elim
    | error e =>
      cases ht : perform' t r with
      | ok t' => rw [hs, ht] at hr; exact hr.elim
      | error f => exact ih h

end running

end Request

/-- An entry after a request that modifies it. -/
def Entry.modified (entry : Entry) : Request → Entry
  | .loosen parameter => (entry.loosen parameter).toOption.getD entry
  | .boost factor => entry.multiplyBoost factor
  | _ => entry

/-- An entry after the requests that follow it, as far as no other entry is added. -/
def Entry.changed (entry : Entry) (requests : List Request) : Entry :=
  (requests.takeWhile fun r => !r.isEntry).foldl modified entry

theorem Entry.changed_cons (entry : Entry) (r : Request) (requests : List Request) :
    entry.changed (r :: requests) = if r.isEntry then entry else (entry.modified r).changed requests := by
  rw [changed, List.takeWhile_cons]
  cases r.isEntry <;> rfl

/-- A modifier reaches the entry unless another one stands in between. -/
theorem Entry.changed_concat (entry : Entry) (requests : List Request) (r : Request) :
    entry.changed (requests ++ [r]) =
      if requests.any Request.isEntry then entry.changed requests else (entry.changed requests).modified r := by
  induction requests generalizing entry with
  | nil =>
    rw [List.nil_append, changed_cons]
    cases r <;> rfl
  | cons first rest ih =>
    rw [List.cons_append, changed_cons, changed_cons, List.any_cons, ih]
    cases first.isEntry <;> rfl

theorem Entry.changed_concat_of_not_isModifier {r : Request} (hr : r.isModifier = false) (entry : Entry)
    (requests : List Request) : entry.changed (requests ++ [r]) = entry.changed requests := by
  rw [changed_concat]
  cases r with
  | loosen | boost => cases hr
  | _ => exact ite_self _

namespace Scope

def perform (s : Scope) : Request → Except Error Scope
  | .setField field => .ok (s.setField field)
  | .setSign sign => s.setSign sign
  | .addEntry entry => .ok (s.addEntry entry)
  | .addOperator op position => s.addOperator op position
  | .loosen parameter => s.loosen parameter
  | .boost factor => s.boost factor

/-- What an accepted request does to a level. -/
inductive Performs (s : Scope) : Request → Scope → Prop where
  | setField (field : String) : Performs s (.setField field) (s.setField field)
  | setSign (sign : Occur) (h : s.style ≠ some .operators) :
    Performs s (.setSign sign) { s with style := some .signs, pendingSign := some sign }
  | addEntry (entry : Entry) : Performs s (.addEntry entry) (s.addEntry entry)
  | addOperator (op : Operator) (position : Nat) (h : s.style ≠ some .signs) :
    Performs s (.addOperator op position)
      { s with style := some .operators, items := s.items ++ [.operator op position] }
  | modify {r : Request} {front : List Item} {entry : Entry} {sign : Option Occur} (hr : r.isModifier = true)
    (hfield : s.pendingField = none) (hsign : s.pendingSign = none) (hitems : s.items = front ++ [.entry entry sign]) :
    Performs s r { s with items := front ++ [.entry (entry.modified r) sign] }

theorem performs_of_ok {s s' : Scope} {r : Request} (h : s.perform r = .ok s') : s.Performs r s' := by
  cases r with
  | setField field => cases h; exact .setField field
  | setSign sign =>
    obtain ⟨hstyle, rfl⟩ := setSign_ok h
    exact .setSign sign hstyle
  | addEntry entry => cases h; exact .addEntry entry
  | addOperator op position =>
    obtain ⟨hstyle, rfl⟩ := addOperator_ok h
    exact .addOperator op position hstyle
  | loosen parameter =>
    obtain ⟨hfield, hsign, front, entry, sign, entry', hitems, hentry, rfl⟩ := modifyLast_ok h
    have hmodified : entry.modified (.loosen parameter) = entry' := by rw [Entry.modified, hentry]; rfl
    exact hmodified ▸ .modify rfl hfield hsign hitems
  | boost factor =>
    obtain ⟨hfield, hsign, front, entry, sign, entry', hitems, hentry, rfl⟩ := modifyLast_ok h
    cases hentry
    exact .modify rfl hfield hsign hitems

/-- The style is that of the requests accepted so far. -/
structure Styled (s : Scope) (done : List Request) : Prop where
  signs : s.style = some .signs ↔ ∃ sign, .setSign sign ∈ done
  operators : s.style = some .operators ↔ ∃ op position, .addOperator op position ∈ done

theorem Styled.step {s s' : Scope} {done : List Request} {r : Request} (h : s.Styled done) (hr : s.Performs r s') :
    s'.Styled (done ++ [r]) := by
  obtain ⟨hsigns, hoperators⟩ := h
  cases hr with
  | setField field | addEntry entry =>
    constructor
    · simpa [Scope.setField, Scope.addEntry] using hsigns
    · simpa [Scope.setField, Scope.addEntry] using hoperators
  | setSign sign hstyle =>
    have hnone : ¬∃ op position, .addOperator op position ∈ done := fun h => hstyle (hoperators.2 h)
    constructor
    · exact iff_of_true rfl ⟨sign, List.mem_append_right _ List.mem_cons_self⟩
    · simpa using hnone
  | addOperator op position hstyle =>
    have hnone : ¬∃ sign, .setSign sign ∈ done := fun h => hstyle (hsigns.2 h)
    constructor
    · simpa using hnone
    · exact iff_of_true rfl ⟨op, position, List.mem_append_right _ List.mem_cons_self⟩
  | modify hr =>
    cases r with
    | loosen | boost =>
      constructor
      · simpa using hsigns
      · simpa using hoperators
    | _ => cases hr

end Scope

end TextSearch
