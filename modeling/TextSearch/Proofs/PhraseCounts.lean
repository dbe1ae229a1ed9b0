import Mathlib.Data.List.Forall2
import Mathlib.Order.Interval.Set.Basic
import TextSearch.Proofs.Candidates
import TextSearch.Proofs.Positive

/-! A phrase whose terms all stand at their offsets from one start occurs, whatever its slop. -/
namespace TextSearch

namespace PhraseFrequency

/-- A term that stands at its offset from the start is counted as standing right, seen from any other such
term. -/
theorem standsRight_of_start {start : Nat} {offset : UInt32} {p : Placement} (hmem : start + p.1.toNat ∈ p.2)
    (hfits : start + p.1.toNat < UInt32.size) : standsRight offset (start + offset.toNat) p = true := by
  have hexpected : ((start + offset.toNat : Nat) : Int) + p.1.toNat - offset.toNat = (start + p.1.toNat : Nat) := by
    omega
  unfold standsRight
  dsimp only
  rw [hexpected, Int.toNat_natCast, Nat.mod_eq_of_lt hfits, Bool.and_eq_true]
  exact ⟨decide_eq_true (Int.natCast_nonneg _), List.contains_iff_mem.mpr hmem⟩

theorem exactCount_pos {placements : List Placement} (hne : placements ≠ []) (start : Nat)
    (h : ∀ p ∈ placements, start + p.1.toNat ∈ p.2 ∧ start + p.1.toNat < UInt32.size) :
    0 < exactCount placements := by
  obtain ⟨first, hfirst⟩ := List.exists_mem_of_ne_nil placements hne
  obtain ⟨⟨offset, positions⟩, hanchor, -⟩ := rarest_le hfirst
  have hmem := (h _ (List.mem_of_getElem? hanchor)).1
  unfold exactCount
  dsimp only
  rw [hanchor]
  refine List.length_pos_of_mem (List.mem_filter.mpr ⟨hmem, List.all_eq_true.mpr fun p hp => ?_⟩)
  obtain ⟨hp, hfits⟩ := h p (List.mem_of_mem_eraseIdx hp)
  exact standsRight_of_start hp hfits

/-- The arrangements are the choices of one position for each term. -/
theorem mem_arrangements {arrangement : List Nat} {positions : List (List Nat)} :
    arrangement ∈ arrangements positions ↔ List.Forall₂ (· ∈ ·) arrangement positions := by
  induction positions generalizing arrangement with
  | nil => simp [arrangements]
  | cons ps rest ih =>
    simp only [arrangements, List.mem_flatMap, List.mem_map, ih]
    constructor
    · rintro ⟨p, hp, others, hothers, rfl⟩
      exact .cons hp hothers
    · rintro (_ | ⟨hp, hothers⟩)
      exact ⟨_, hp, _, hothers, rfl⟩

private theorem isLeast_foldl_min {α : Type} (f : α → Nat) (xs : List α) (best : Nat) :
    IsLeast (insert best (f '' {x | x ∈ xs})) (xs.foldl (fun best x => min best (f x)) best) := by
  induction xs generalizing best with
  | nil => simp
  | cons y rest ih =>
    obtain ⟨hmem, hle⟩ := ih (min best (f y))
    have hleast : rest.foldl (fun best x => min best (f x)) (min best (f y)) ≤ min best (f y) :=
      hle (Set.mem_insert _ _)
    constructor
    · rcases hmem with hfirst | ⟨x, hx, hlast⟩
      · rw [List.foldl_cons, hfirst]
        rcases min_choice best (f y) with h | h <;> rw [h]
        · exact .inl rfl
        · exact .inr ⟨y, List.mem_cons_self, rfl⟩
      · exact .inr ⟨x, List.mem_cons_of_mem y hx, hlast⟩
    · rintro d (rfl | ⟨x, hx, rfl⟩)
      · exact hleast.trans (Nat.min_le_left _ _)
      · rcases List.mem_cons.mp hx with rfl | hx
        · exact hleast.trans (Nat.min_le_right _ _)
        · exact hle (.inr ⟨x, hx, rfl⟩)

/-- Where the first term puts the start. -/
def firstStart (offsets : List UInt32) (arrangement : List Nat) : Int :=
  (arrangement.headD 0 : Int) - (offsets.headD 0).toNat

/-- The starts that are tried lie within the slop on both sides of where the first term puts the start. -/
theorem isLeast_leastDisplacement (offsets : List UInt32) (slop : Nat) (arrangement : List Nat) :
    IsLeast (displacement offsets arrangement ''
        Set.Icc (firstStart offsets arrangement - slop) (firstStart offsets arrangement + slop))
      (leastDisplacement offsets slop arrangement) := by
  have hwindow : displacement offsets arrangement ''
        Set.Icc (firstStart offsets arrangement - slop) (firstStart offsets arrangement + slop) =
      insert (displacement offsets arrangement (firstStart offsets arrangement - slop))
        ((fun (shift : Nat) => displacement offsets arrangement (firstStart offsets arrangement - slop + shift + 1)) ''
          {shift | shift ∈ List.range (2 * slop)}) := by
    ext d
    constructor
    · rintro ⟨start, ⟨hlow, hhigh⟩, rfl⟩
      by_cases hfirst : start = firstStart offsets arrangement - slop
      · exact .inl (congrArg _ hfirst)
      · refine .inr ⟨(start - (firstStart offsets arrangement - slop) - 1).toNat, ?_, congrArg _ (by omega)⟩
        exact List.mem_range.mpr (by omega)
    · rintro (rfl | ⟨shift, hshift, rfl⟩)
      · exact ⟨_, ⟨le_rfl, by omega⟩, rfl⟩
      · have hshift := List.mem_range.mp hshift
        exact ⟨_, ⟨by omega, by omega⟩, rfl⟩
  rw [hwindow]
  exact isLeast_foldl_min _ _ _

theorem displacement_eq_zero (offsets : List UInt32) (start : Nat) :
    displacement offsets (offsets.map (start + ·.toNat)) start = 0 := by
  induction offsets with
  | nil => rfl
  | cons o rest ih =>
    have hfirst : (((start + o.toNat : Nat) : Int) - o.toNat - start).natAbs = 0 := by omega
    simp only [displacement, List.map_cons, List.zip_cons_cons, List.foldr_cons] at ih ⊢
    rw [hfirst, ih]

theorem looseCount_eq (offsets : List UInt32) (slop : Nat) (positions : List (List Nat)) :
    looseCount offsets slop positions =
      (((arrangements positions).map (leastDisplacement offsets slop)).filter (· ≤ slop)).foldl
        (fun sum distance => sum + Scoring.looseFrequency distance) 0 := by
  rw [List.foldl_filter, looseCount]
  simp only [decide_eq_true_eq]

theorem looseCount_pos {offsets : List UInt32} {slop : Nat} {positions : List (List Nat)}
    (start : Nat) (h : List.Forall₂ (· ∈ ·) (offsets.map (start + ·.toNat)) positions) :
    0 < looseCount offsets slop positions := by
  have hleast : leastDisplacement offsets slop (offsets.map (start + ·.toNat)) = 0 := by
    apply Nat.le_zero.mp
    apply (isLeast_leastDisplacement offsets slop _).2
    refine ⟨firstStart offsets (offsets.map (start + ·.toNat)), ⟨by omega, by omega⟩, ?_⟩
    cases offsets with
    | nil => rfl
    | cons o rest =>
      have hstart : firstStart (o :: rest) ((o :: rest).map (start + ·.toNat)) = start := by
        simp [firstStart]
      rw [hstart, displacement_eq_zero]
  have hcounted : 0 ∈ ((arrangements positions).map (leastDisplacement offsets slop)).filter (· ≤ slop) := by
    apply List.mem_filter.mpr
    exact ⟨List.mem_map.mpr ⟨_, mem_arrangements.mpr h, hleast⟩, by simp⟩
  rw [looseCount_eq]
  apply Scoring.foldl_add_pos _ _ _ 0 (by decide)
  · exact .inr ⟨0, hcounted, Scoring.looseFrequency_zero_pos⟩
  · intro distance _
    exact Scoring.looseFrequency_nonneg distance

end PhraseFrequency

namespace PhraseQuery
variable {ix : Index} {n : PhraseQuery} {doc : Nat}

/-- A phrase occurs where all of its terms stand at their offsets from one start. -/
theorem occurs_of_start (hne : n.terms ≠ []) {start : Nat} (h : ∀ t ∈ n.terms,
    start + t.2.toNat ∈ (ix.positions t.1).getD doc [] ∧ start + t.2.toNat < UInt32.size) :
    n.Occurs ix doc := by
  unfold Occurs frequency
  rw [List.map_map]
  dsimp only
  split
  case isTrue =>
    apply Scoring.ofNat_pos
    refine PhraseFrequency.exactCount_pos ?_ start ?_
    · simpa [List.zip_map'] using hne
    · intro p hp
      rw [List.zip_map'] at hp
      obtain ⟨t, ht, rfl⟩ := List.mem_map.mp hp
      exact h t ht
  case isFalse =>
    rw [if_neg (by simpa using hne)]
    apply PhraseFrequency.looseCount_pos start
    rw [List.map_map, List.forall₂_map_left_iff, List.forall₂_map_right_iff, List.forall₂_same]
    exact fun t ht => (h t ht).1

theorem getElem?_frequenciesIn {docs : DocSet} (hdoc : doc ∈ docs) (h : n.Occurs ix doc) :
    (n.frequenciesIn ix docs)[doc]? =
      some (n.frequency ((n.terms.map fun (t, _) => ix.positions t).map (·.getD doc []))) := by
  unfold frequenciesIn
  dsimp only
  apply Std.ExtTreeMap.getElem?_ofList_of_mem (k := doc) Std.compare_self
  · apply List.Pairwise.filterMap _ _ docs.distinct_toList
    intro d d' hdistinct x hx y hy
    obtain ⟨-, hx⟩ := Option.ite_none_right_eq_some.mp hx
    obtain ⟨-, hy⟩ := Option.ite_none_right_eq_some.mp hy
    cases hx
    cases hy
    exact hdistinct
  · apply List.mem_filterMap.mpr
    exact ⟨doc, Std.ExtTreeSet.mem_toList.mpr hdoc, if_pos h⟩

end PhraseQuery

end TextSearch
