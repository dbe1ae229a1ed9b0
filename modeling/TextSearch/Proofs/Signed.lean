import Mathlib.Order.SetNotation
import Mathlib.Tactic.Tauto
import TextSearch.Query.Execute

/-! What it means for signed conditions to hold together, and when lists of them can replace each other. -/
namespace TextSearch

/-- A condition for each signed part of a combination. -/
abbrev Conditions := List (Occur × Prop)

namespace Conditions

def Mandatory (cs : Conditions) : Prop := ∃ c ∈ cs, c.1 = .required

def AllRequired (cs : Conditions) : Prop := ∀ c ∈ cs, c.1 = .required → c.2

def AnyOptional (cs : Conditions) : Prop := ∃ c ∈ cs, c.1 = .optional ∧ c.2

def AnyProhibited (cs : Conditions) : Prop := ∃ c ∈ cs, c.1 = .prohibited ∧ c.2

/-- Every required condition holds, or without one any optional condition; and no prohibited one does. -/
def Holds (cs : Conditions) : Prop :=
  cs.AllRequired ∧ (cs.Mandatory ∨ cs.AnyOptional) ∧ ¬ cs.AnyProhibited

section laws
variable {c : Occur × Prop} {as bs cs : Conditions}

@[simp] theorem mandatory_nil : ¬ Mandatory [] := by simp [Mandatory]
@[simp] theorem allRequired_nil : AllRequired [] := by simp [AllRequired]
@[simp] theorem anyOptional_nil : ¬ AnyOptional [] := by simp [AnyOptional]
@[simp] theorem anyProhibited_nil : ¬ AnyProhibited [] := by simp [AnyProhibited]

@[simp] theorem mandatory_cons : Mandatory (c :: cs) ↔ c.1 = .required ∨ Mandatory cs := by
  simp [Mandatory]

@[simp] theorem allRequired_cons : AllRequired (c :: cs) ↔ (c.1 = .required → c.2) ∧ AllRequired cs :=
  List.forall_mem_cons

@[simp] theorem anyOptional_cons : AnyOptional (c :: cs) ↔ (c.1 = .optional ∧ c.2) ∨ AnyOptional cs := by
  simp [AnyOptional]

@[simp] theorem anyProhibited_cons :
    AnyProhibited (c :: cs) ↔ (c.1 = .prohibited ∧ c.2) ∨ AnyProhibited cs := by
  simp [AnyProhibited]

@[simp] theorem mandatory_append : Mandatory (as ++ bs) ↔ Mandatory as ∨ Mandatory bs := by
  simp only [Mandatory, List.mem_append, or_and_right, exists_or]

@[simp] theorem allRequired_append : AllRequired (as ++ bs) ↔ AllRequired as ∧ AllRequired bs :=
  List.forall_mem_append

@[simp] theorem anyOptional_append : AnyOptional (as ++ bs) ↔ AnyOptional as ∨ AnyOptional bs := by
  simp only [AnyOptional, List.mem_append, or_and_right, exists_or]

@[simp] theorem anyProhibited_append : AnyProhibited (as ++ bs) ↔ AnyProhibited as ∨ AnyProhibited bs := by
  simp only [AnyProhibited, List.mem_append, or_and_right, exists_or]

section map
variable {α : Type} {f : α → Occur × Prop} {xs : List α}

theorem mandatory_map : Mandatory (xs.map f) ↔ ∃ x ∈ xs, (f x).1 = .required := by
  simp [Mandatory]

theorem allRequired_map : AllRequired (xs.map f) ↔ ∀ x ∈ xs, (f x).1 = .required → (f x).2 :=
  List.forall_mem_map

theorem anyOptional_map : AnyOptional (xs.map f) ↔ ∃ x ∈ xs, (f x).1 = .optional ∧ (f x).2 := by
  simp [AnyOptional]

theorem anyProhibited_map : AnyProhibited (xs.map f) ↔ ∃ x ∈ xs, (f x).1 = .prohibited ∧ (f x).2 := by
  simp [AnyProhibited]

end map

theorem allRequired_of_not_mandatory (h : ¬ Mandatory cs) : AllRequired cs :=
  fun c hc hr => (h ⟨c, hc, hr⟩).elim

end laws

/-- Agreement on everything `Holds` depends on. Optional conditions count only where nothing is required. -/
structure Alike (as bs : Conditions) : Prop where
  mandatory : as.Mandatory ↔ bs.Mandatory
  allRequired : as.AllRequired ↔ bs.AllRequired
  anyOptional : ¬ as.Mandatory → (as.AnyOptional ↔ bs.AnyOptional)
  anyProhibited : as.AnyProhibited ↔ bs.AnyProhibited

namespace Alike
variable {as bs cs ds : Conditions}

theorem refl (as : Conditions) : Alike as as := ⟨.rfl, .rfl, fun _ => .rfl, .rfl⟩

theorem symm (h : Alike as bs) : Alike bs as where
  mandatory := h.mandatory.symm
  allRequired := h.allRequired.symm
  anyOptional hb := (h.anyOptional (mt h.mandatory.mp hb)).symm
  anyProhibited := h.anyProhibited.symm

theorem trans (h : Alike as bs) (k : Alike bs cs) : Alike as cs where
  mandatory := h.mandatory.trans k.mandatory
  allRequired := h.allRequired.trans k.allRequired
  anyOptional ha := (h.anyOptional ha).trans (k.anyOptional (mt h.mandatory.mpr ha))
  anyProhibited := h.anyProhibited.trans k.anyProhibited

theorem append (h : Alike as bs) (k : Alike cs ds) : Alike (as ++ cs) (bs ++ ds) where
  mandatory := by simp [h.mandatory, k.mandatory]
  allRequired := by simp [h.allRequired, k.allRequired]
  anyOptional hn := by
    simp only [mandatory_append, not_or] at hn
    simp [h.anyOptional hn.1, k.anyOptional hn.2]
  anyProhibited := by simp [h.anyProhibited, k.anyProhibited]

/-- Neither the order nor the number of conditions matters. -/
theorem of_mem_iff (h : ∀ c, c ∈ as ↔ c ∈ bs) : Alike as bs where
  mandatory := by simp only [Mandatory, h]
  allRequired := by simp only [AllRequired, h]
  anyOptional _ := by simp only [AnyOptional, h]
  anyProhibited := by simp only [AnyProhibited, h]

theorem holds_iff (h : Alike as bs) : as.Holds ↔ bs.Holds := by
  unfold Holds
  rw [h.allRequired, h.anyProhibited]
  by_cases ha : as.Mandatory
  · simp [ha, h.mandatory.mp ha]
  · simp [ha, mt h.mandatory.mpr ha, h.anyOptional ha]

section map
variable {α : Type} {f : α → Occur × Prop} {xs : List α}

/-- Parts that can neither fail a combination nor make one hold may be left out. -/
theorem map_filter {keep : α → Bool} (h : ∀ x ∈ xs, keep x = false → (f x).1 ≠ .required ∧ ¬ (f x).2) :
    Alike (xs.map f) ((xs.filter keep).map f) where
  mandatory := by
    simp only [mandatory_map, List.mem_filter]
    constructor
    · rintro ⟨x, hx, hr⟩
      exact ⟨x, ⟨hx, by_contra fun hk => (h x hx (by simpa using hk)).1 hr⟩, hr⟩
    · rintro ⟨x, hx, hr⟩
      exact ⟨x, hx.1, hr⟩
  allRequired := by
    simp only [allRequired_map, List.mem_filter]
    constructor
    · exact fun hall x hx => hall x hx.1
    · intro hall x hx hr
      exact hall x ⟨hx, by_contra fun hk => (h x hx (by simpa using hk)).1 hr⟩ hr
  anyOptional _ := by
    simp only [anyOptional_map, List.mem_filter]
    constructor
    · rintro ⟨x, hx, ho, hp⟩
      exact ⟨x, ⟨hx, by_contra fun hk => (h x hx (by simpa using hk)).2 hp⟩, ho, hp⟩
    · rintro ⟨x, hx, hp⟩
      exact ⟨x, hx.1, hp⟩
  anyProhibited := by
    simp only [anyProhibited_map, List.mem_filter]
    constructor
    · rintro ⟨x, hx, ho, hp⟩
      exact ⟨x, ⟨hx, by_contra fun hk => (h x hx (by simpa using hk)).2 hp⟩, ho, hp⟩
    · rintro ⟨x, hx, hp⟩
      exact ⟨x, hx.1, hp⟩

/-- Optional parts are one optional part for any of them, and so are prohibited ones. -/
theorem any {o : Occur} (ho : o ≠ .required) (p : α → Prop) (xs : List α) :
    Alike [(o, ∃ x ∈ xs, p x)] (xs.map fun x => (o, p x)) where
  mandatory := by simp [mandatory_map, ho]
  allRequired := by simp [allRequired_map, ho]
  anyOptional _ := by simp [anyOptional_map]; tauto
  anyProhibited := by simp [anyProhibited_map]; tauto

end map

/-- Conditions without a prohibited one can be replaced by one for all of them. -/
theorem whole (h : ¬ as.AnyProhibited) {o : Occur} (hr : o = .required ↔ as.Mandatory) (ho : o ≠ .prohibited) :
    Alike as [(o, as.Holds)] where
  mandatory := by simp [hr]
  allRequired := by
    by_cases hm : as.Mandatory
    · simp [hr, hm, Holds, h]
    · simp [hr, hm, allRequired_of_not_mandatory hm]
  anyOptional hm := by
    have hopt : o = .optional := by
      cases o with
      | required => exact (hm (hr.mp rfl)).elim
      | optional => rfl
      | prohibited => exact (ho rfl).elim
    simp [hopt, Holds, allRequired_of_not_mandatory hm, hm, h]
  anyProhibited := by simp [ho, h]

end Alike

section holds
variable {cs : Conditions}

theorem not_holds_of_all_prohibited (h : ∀ c ∈ cs, c.1 = .prohibited) : ¬ cs.Holds := by
  rintro ⟨-, ⟨c, hc, hr⟩ | ⟨c, hc, ho, -⟩, -⟩
  · rw [h c hc] at hr; cases hr
  · rw [h c hc] at ho; cases ho

theorem not_holds_of_required {c : Occur × Prop} (hc : c ∈ cs) (hr : c.1 = .required) (hp : ¬ c.2) :
    ¬ cs.Holds :=
  fun h => hp (h.1 c hc hr)

theorem holds_singleton {o : Occur} {p : Prop} (ho : o ≠ .prohibited) : Holds [(o, p)] ↔ p := by
  cases o with
  | required => simp [Holds]
  | optional => simp [Holds]
  | prohibited => exact (ho rfl).elim

theorem holds_map_of_all_optional {α : Type} {f : α → Occur × Prop} {xs : List α}
    (h : ∀ x ∈ xs, (f x).1 = .optional) : Holds (xs.map f) ↔ ∃ x ∈ xs, (f x).2 := by
  have hm : ¬ Mandatory (xs.map f) := by
    rw [mandatory_map]
    rintro ⟨x, hx, hr⟩
    rw [h x hx] at hr
    cases hr
  have hp : ¬ AnyProhibited (xs.map f) := by
    rw [anyProhibited_map]
    rintro ⟨x, hx, hr, -⟩
    rw [h x hx] at hr
    cases hr
  simp only [Holds, allRequired_of_not_mandatory hm, hm, hp, true_and, false_or, not_false_eq_true, and_true,
    anyOptional_map]
  exact ⟨fun ⟨x, hx, _, ht⟩ => ⟨x, hx, ht⟩, fun ⟨x, hx, ht⟩ => ⟨x, hx, h x hx, ht⟩⟩

theorem holds_map_of_all_required {α : Type} {f : α → Occur × Prop} {xs : List α}
    (h : ∀ x ∈ xs, (f x).1 = .required) (hne : xs ≠ []) : Holds (xs.map f) ↔ ∀ x ∈ xs, (f x).2 := by
  have hm : Mandatory (xs.map f) := by
    obtain ⟨x, hx⟩ := List.exists_mem_of_ne_nil xs hne
    exact mandatory_map.2 ⟨x, hx, h x hx⟩
  have hp : ¬ AnyProhibited (xs.map f) := by
    rw [anyProhibited_map]
    rintro ⟨x, hx, hr, -⟩
    rw [h x hx] at hr
    cases hr
  simp only [Holds, hm, hp, true_or, not_false_eq_true, and_true, allRequired_map]
  exact forall₂_congr fun x hx => ⟨fun hall => hall (h x hx), fun hx' _ => hx'⟩

/-- A condition can be moved into all parts of a combination, which has a required or an optional part
that holds. -/
theorem and_holds_iff (p : Prop) (cs : Conditions) :
    (p ∧ cs.Holds) ↔ Holds (cs.map fun c => (c.1, p ∧ c.2)) := by
  by_cases hp : p
  · simp [hp]
  · refine ⟨fun h => (hp h.1).elim, ?_⟩
    rintro ⟨hall, ⟨c, hc, hr⟩ | ⟨c, hc, -, hq⟩, -⟩
    · have hq := hall c hc hr
      obtain ⟨d, -, rfl⟩ := List.mem_map.mp hc
      exact (hp hq.1).elim
    · obtain ⟨d, -, rfl⟩ := List.mem_map.mp hc
      exact (hp hq.1).elim

end holds

end Conditions

end TextSearch
