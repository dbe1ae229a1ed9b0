import Mathlib.Order.Bounds.Basic
import Mathlib.Order.MinMax
import TextSearch.Text.EditDistance

/-! The edit distance is the least number of single edits that turn one text into another, and so it is a distance. -/
namespace TextSearch

/-- One character is inserted, deleted or replaced. -/
inductive Edit : List Char → List Char → Prop
  | insert (before after : List Char) (c : Char) : Edit (before ++ after) (before ++ c :: after)
  | delete (before after : List Char) (c : Char) : Edit (before ++ c :: after) (before ++ after)
  | replace (before after : List Char) (c d : Char) : Edit (before ++ c :: after) (before ++ d :: after)

/-- A number of edits turn one text into another. -/
inductive Edits : Nat → List Char → List Char → Prop
  | none (s : List Char) : Edits 0 s s
  | next {n : Nat} {s t u : List Char} : Edits n s t → Edit t u → Edits (n + 1) s u

namespace Edit
variable {s t : List Char}

theorem symm (h : Edit s t) : Edit t s := by
  cases h with
  | insert before after c => exact .delete before after c
  | delete before after c => exact .insert before after c
  | replace before after c d => exact .replace before after d c

theorem cons (h : Edit s t) (c : Char) : Edit (c :: s) (c :: t) := by
  cases h with
  | insert before after d => exact .insert (c :: before) after d
  | delete before after d => exact .delete (c :: before) after d
  | replace before after d e => exact .replace (c :: before) after d e

theorem reverse (h : Edit s t) : Edit s.reverse t.reverse := by
  cases h with
  | insert before after c => simpa using Edit.insert after.reverse before.reverse c
  | delete before after c => simpa using Edit.delete after.reverse before.reverse c
  | replace before after c d => simpa using Edit.replace after.reverse before.reverse c d

theorem length_le (h : Edit s t) : t.length ≤ s.length + 1 := by
  cases h <;> simp only [List.length_append, List.length_cons] <;> omega

end Edit

namespace Edits
variable {m n : Nat} {s t u : List Char}

theorem one (h : Edit s t) : Edits 1 s t := .next (.none s) h

theorem trans (h : Edits m s t) (h' : Edits n t u) : Edits (m + n) s u := by
  induction h' with
  | none => exact h
  | next _ hedit ih => exact .next (ih h) hedit

theorem symm (h : Edits n s t) : Edits n t s := by
  induction h with
  | none s => exact .none s
  | @next n s t u _ hedit ih =>
    rw [Nat.add_comm]
    exact (one hedit.symm).trans ih

theorem comm : Edits n s t ↔ Edits n t s := ⟨symm, symm⟩

theorem cons (h : Edits n s t) (c : Char) : Edits n (c :: s) (c :: t) := by
  induction h with
  | none s => exact .none _
  | next _ hedit ih => exact .next ih (hedit.cons c)

theorem reverse (h : Edits n s t) : Edits n s.reverse t.reverse := by
  induction h with
  | none s => exact .none _
  | next _ hedit ih => exact .next ih hedit.reverse

theorem reverse_iff : Edits n s.reverse t.reverse ↔ Edits n s t :=
  ⟨fun h => by simpa using h.reverse, reverse⟩

theorem zero_iff : Edits 0 s t ↔ s = t := by
  constructor
  · rintro ⟨⟩
    rfl
  · rintro rfl
    exact .none s

theorem length_le (h : Edits n s t) : t.length ≤ s.length + n := by
  induction h with
  | none => exact Nat.le_refl _
  | next _ hedit ih =>
    have := hedit.length_le
    omega

/-- A text can be written character by character. -/
theorem ofNil (t : List Char) : Edits t.length [] t := by
  induction t with
  | nil => exact .none []
  | cons c t ih => exact .next ih (.insert [] t c)

end Edits

/-- The least number of edits in terms of the rests of both texts: their first characters are deleted, inserted or
replaced unless they agree. -/
def leastEdits : List Char → List Char → Nat
  | [], t => t.length
  | s, [] => s.length
  | c :: s, d :: t =>
    min (min (leastEdits s (d :: t) + 1) (leastEdits (c :: s) t + 1)) (leastEdits s t + if c = d then 0 else 1)
  termination_by s t => s.length + t.length

section leastEdits

theorem leastEdits_nil_left (t : List Char) : leastEdits [] t = t.length := by rw [leastEdits]

theorem leastEdits_nil_right (s : List Char) : leastEdits s [] = s.length := by cases s <;> simp [leastEdits]

theorem leastEdits_cons_cons (c d : Char) (s t : List Char) : leastEdits (c :: s) (d :: t) =
    min (min (leastEdits s (d :: t) + 1) (leastEdits (c :: s) t + 1)) (leastEdits s t + if c = d then 0 else 1) := by
  rw [leastEdits]

theorem edits_leastEdits (s t : List Char) : Edits (leastEdits s t) s t := by
  fun_induction leastEdits s t with
  | case1 t => exact .ofNil t
  | case2 s => exact (Edits.ofNil s).symm
  | case3 c s d t hdelete hinsert hkeep =>
    rcases min_choice (min (leastEdits s (d :: t) + 1) (leastEdits (c :: s) t + 1))
      (leastEdits s t + if c = d then 0 else 1) with h | h <;> rw [h]
    · rcases min_choice (leastEdits s (d :: t) + 1) (leastEdits (c :: s) t + 1) with h | h <;> rw [h]
      · rw [Nat.add_comm]
        exact (Edits.one (.delete [] s c)).trans hdelete
      · exact .next hinsert (.insert [] t d)
    · split
      · rename_i hsame
        exact hsame ▸ hkeep.cons c
      · exact .next (hkeep.cons c) (.replace [] t c d)

theorem leastEdits_self (s : List Char) : leastEdits s s = 0 := by
  induction s with
  | nil => rw [leastEdits_nil_left, List.length_nil]
  | cons c s ih =>
    rw [leastEdits_cons_cons, ih, if_pos rfl]
    omega

theorem leastEdits_le_max (s t : List Char) : leastEdits s t ≤ max s.length t.length := by
  fun_induction leastEdits s t with
  | case1 t => exact Nat.le_max_right _ _
  | case2 s => exact Nat.le_max_left _ _
  | case3 c s d t _ _ hkeep =>
    have hreplace : (if c = d then 0 else 1) ≤ 1 := by split <;> omega
    simp only [List.length_cons]
    omega

/-- One character more in front of either text costs at most one edit more. -/
theorem leastEdits_cons_left_le (c : Char) (s t : List Char) : leastEdits (c :: s) t ≤ leastEdits s t + 1 := by
  cases t with
  | nil => simp only [leastEdits_nil_right, List.length_cons, Nat.le_refl]
  | cons d t =>
    rw [leastEdits_cons_cons]
    omega

theorem leastEdits_cons_right_le (d : Char) (s t : List Char) : leastEdits s (d :: t) ≤ leastEdits s t + 1 := by
  cases s with
  | nil => simp only [leastEdits_nil_left, List.length_cons, Nat.le_refl]
  | cons c s =>
    rw [leastEdits_cons_cons]
    omega

theorem leastEdits_le_cons_right (d : Char) (s t : List Char) : leastEdits s t ≤ leastEdits s (d :: t) + 1 := by
  induction s with
  | nil =>
    simp only [leastEdits_nil_left, List.length_cons]
    omega
  | cons c s ih =>
    have hdelete := leastEdits_cons_left_le c s t
    rw [leastEdits_cons_cons]
    omega

theorem leastEdits_replace_le (d e : Char) (s t : List Char) :
    leastEdits s (e :: t) ≤ leastEdits s (d :: t) + 1 := by
  induction s with
  | nil => simp only [leastEdits_nil_left, List.length_cons, Nat.le_add_right]
  | cons c s ih =>
    have hreplace : (if c = e then 0 else 1) ≤ 1 := by split <;> omega
    rw [leastEdits_cons_cons, leastEdits_cons_cons]
    omega

/-- An edit behind a common start matters no more than it does without it. -/
theorem leastEdits_append_le {t u : List Char} (h : ∀ s, leastEdits s u ≤ leastEdits s t + 1)
    (before s : List Char) : leastEdits s (before ++ u) ≤ leastEdits s (before ++ t) + 1 := by
  induction before generalizing s with
  | nil => exact h s
  | cons d before ihbefore =>
    rw [List.cons_append, List.cons_append]
    induction s with
    | nil =>
      have hlength := ihbefore []
      simp only [leastEdits_nil_left, List.length_cons] at hlength ⊢
      omega
    | cons c s ih =>
      have hinsert := ihbefore (c :: s)
      have hkeep := ihbefore s
      rw [leastEdits_cons_cons, leastEdits_cons_cons]
      omega

/-- One edit changes the least number of edits by no more than one. -/
theorem leastEdits_le_of_edit {t u : List Char} (h : Edit t u) (s : List Char) :
    leastEdits s u ≤ leastEdits s t + 1 := by
  cases h with
  | insert before after c => exact leastEdits_append_le (leastEdits_cons_right_le c · after) before s
  | delete before after c => exact leastEdits_append_le (leastEdits_le_cons_right c · after) before s
  | replace before after c d => exact leastEdits_append_le (leastEdits_replace_le c d · after) before s

theorem leastEdits_le {n : Nat} {s t : List Char} (h : Edits n s t) : leastEdits s t ≤ n := by
  induction h with
  | none s => exact (leastEdits_self s).le
  | next _ hedit ih => exact (leastEdits_le_of_edit hedit _).trans (Nat.succ_le_succ ih)

theorem isLeast_leastEdits (s t : List Char) : IsLeast {n | Edits n s t} (leastEdits s t) :=
  ⟨edits_leastEdits s t, fun _ => leastEdits_le⟩

end leastEdits

section table
variable {c : Char} {read before ds : List Char}

/-- The entries of a row of the edit table from a point on: the least numbers of edits between what was read of one text
and growing parts of the other, both backwards. -/
def rowFrom (read before : List Char) : List Char → List Nat
  | [] => [leastEdits read before]
  | d :: ds => leastEdits read before :: rowFrom read (d :: before) ds

theorem rowFrom_eq_cons (read before ds : List Char) :
    rowFrom read before ds = leastEdits read before :: (rowFrom read before ds).tail := by
  cases ds <;> rfl

theorem rowFrom_nil (before ds : List Char) : rowFrom [] before ds = List.range' before.length (ds.length + 1) := by
  induction ds generalizing before with
  | nil => rw [rowFrom, leastEdits_nil_left]; rfl
  | cons d ds ih => rw [rowFrom, ih, leastEdits_nil_left, List.length_cons, List.length_cons, ← List.range'_succ]

theorem getLast?_rowFrom (read before ds : List Char) :
    (rowFrom read before ds).getLast? = some (leastEdits read (ds.reverse ++ before)) := by
  induction ds generalizing before with
  | nil => rfl
  | cons d ds ih =>
    rw [rowFrom, List.getLast?_cons, ih, List.reverse_cons, List.append_assoc]
    rfl

/-- An entry follows from the ones above it, before it and diagonally before it. -/
theorem editRowFrom_eq (c : Char) (read before ds : List Char) :
    editRowFrom c (leastEdits (c :: read) before) ds (rowFrom read before ds) =
      (rowFrom (c :: read) before ds).tail := by
  induction ds generalizing before with
  | nil => rfl
  | cons d ds ih =>
    rw [rowFrom, rowFrom_eq_cons read (d :: before), editRowFrom, ← leastEdits_cons_cons, ← rowFrom_eq_cons, ih]
    exact (rowFrom_eq_cons (c :: read) (d :: before) ds).symm

theorem editRow_eq (c : Char) (read ds : List Char) :
    editRow ds (rowFrom read [] ds) c = rowFrom (c :: read) [] ds := by
  have hleft : (rowFrom read [] ds).headD 0 + 1 = leastEdits (c :: read) [] := by
    rw [rowFrom_eq_cons, List.headD_cons, leastEdits_nil_right, leastEdits_nil_right, List.length_cons]
  rw [editRow, hleft, editRowFrom_eq, ← rowFrom_eq_cons]

theorem foldl_editRow (read long ds : List Char) :
    long.foldl (editRow ds) (rowFrom read [] ds) = rowFrom (long.reverse ++ read) [] ds := by
  induction long generalizing read with
  | nil => rfl
  | cons c long ih => rw [List.foldl_cons, editRow_eq, ih, List.reverse_cons, List.append_assoc]; rfl

/-- The last entry of the last row. -/
theorem getLast?_foldl_editRow (long short : List Char) :
    (long.foldl (editRow short) (List.range (short.length + 1))).getLast? =
      some (leastEdits long.reverse short.reverse) := by
  have hfirst : List.range (short.length + 1) = rowFrom [] [] short := by
    rw [rowFrom_nil, List.range_eq_range', List.length_nil]
  rw [hfirst, foldl_editRow, getLast?_rowFrom, List.append_nil, List.append_nil]

end table

theorem isLeast_editDistance (s t : String) : IsLeast {n | Edits n s.toList t.toList} (editDistance s t) := by
  have htable (long short : List Char) : IsLeast {n | Edits n long short}
      ((long.foldl (editRow short) (List.range (short.length + 1))).getLast?.getD 0) := by
    rw [getLast?_foldl_editRow, Option.getD_some]
    simpa only [Edits.reverse_iff] using isLeast_leastEdits long.reverse short.reverse
  unfold editDistance
  by_cases hlength : s.length ≤ t.length
  · rw [if_pos hlength]
    simpa only [Edits.comm] using htable t.toList s.toList
  · rw [if_neg hlength]
    exact htable s.toList t.toList

theorem editDistance_eq_zero_iff {s t : String} : editDistance s t = 0 ↔ s = t := by
  constructor
  · intro h
    have hedits : Edits (editDistance s t) s.toList t.toList := (isLeast_editDistance s t).1
    rw [h, Edits.zero_iff] at hedits
    exact String.toList_injective hedits
  · rintro rfl
    exact Nat.le_zero.mp ((isLeast_editDistance s s).2 (.none _))

theorem editDistance_le_max (s t : String) : editDistance s t ≤ max s.length t.length :=
  ((isLeast_editDistance s t).2 (edits_leastEdits _ _)).trans (leastEdits_le_max _ _)

/-- Every edit changes the length by one at most. -/
theorem max_sub_min_le_editDistance (s t : String) :
    max s.length t.length - min s.length t.length ≤ editDistance s t := by
  have hedits : Edits (editDistance s t) s.toList t.toList := (isLeast_editDistance s t).1
  have hgrow := hedits.length_le
  have hshrink := hedits.symm.length_le
  simp only [String.length_toList] at hgrow hshrink
  omega

/-- The edit distance of two texts is the least number of single edits between them. It is symmetric, zero for equal
texts only, no longer than a way round, and lies between the difference and the larger one of the lengths. -/
theorem editDistance_least (s t : String) :
    IsLeast {n | Edits n s.toList t.toList} (editDistance s t) ∧
    editDistance t s = editDistance s t ∧
    (editDistance s t = 0 ↔ s = t) ∧
    (∀ u, editDistance s u ≤ editDistance s t + editDistance t u) ∧
    editDistance s t ≤ max s.length t.length ∧
    max s.length t.length - min s.length t.length ≤ editDistance s t := by
  have hleast := isLeast_editDistance s t
  have hedits : Edits (editDistance s t) s.toList t.toList := hleast.1
  refine ⟨hleast, ?_, editDistance_eq_zero_iff, fun u => ?_, editDistance_le_max s t, max_sub_min_le_editDistance s t⟩
  · have hback := isLeast_editDistance t s
    simp only [Edits.comm (s := t.toList)] at hback
    exact hback.unique hleast
  · exact (isLeast_editDistance s u).2 (hedits.trans (isLeast_editDistance t u).1)

example : editDistance "kitten" "sitting" = 3 := by decide

end TextSearch
