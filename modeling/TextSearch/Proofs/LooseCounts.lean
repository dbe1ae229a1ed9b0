import TextSearch.Proofs.PhraseCounts

/-! A phrase with a slop. Trying the starts within the slop of where the first term puts the start finds how far the
terms are out of place at least, wherever the phrase starts, if that is within the slop. -/
namespace TextSearch

namespace PhraseFrequency

/-- The least displacement over all starts. -/
noncomputable def minimalDisplacement (offsets : List UInt32) (arrangement : List Nat) : Nat :=
  sInf (Set.range (displacement offsets arrangement))

/-- The arrangements counted at a slop, each with the displacement found for it. -/
def contributions (offsets : List UInt32) (slop : Nat) (positions : List (List Nat)) : List (List Nat × Nat) :=
  ((arrangements positions).map fun arrangement =>
    (arrangement, leastDisplacement offsets slop arrangement)).filter (·.2 ≤ slop)

section displacement
variable {offsets : List UInt32} {arrangement : List Nat} {slop : Nat}

theorem isLeast_minimalDisplacement (offsets : List UInt32) (arrangement : List Nat) :
    IsLeast (Set.range (displacement offsets arrangement)) (minimalDisplacement offsets arrangement) :=
  ⟨Nat.sInf_mem (Set.range_nonempty _), fun _ => Nat.sInf_le⟩

theorem minimalDisplacement_le (offsets : List UInt32) (slop : Nat) (arrangement : List Nat) :
    minimalDisplacement offsets arrangement ≤ leastDisplacement offsets slop arrangement := by
  obtain ⟨start, -, hstart⟩ := (isLeast_leastDisplacement offsets slop arrangement).1
  exact (isLeast_minimalDisplacement offsets arrangement).2 ⟨start, hstart⟩

/-- The first term alone is as far out of place as the start is from where that term puts it. -/
theorem natAbs_firstStart_sub_le (hoffsets : offsets ≠ []) (harrangement : arrangement ≠ []) (start : Int) :
    (firstStart offsets arrangement - start).natAbs ≤ displacement offsets arrangement start := by
  obtain ⟨o, os, rfl⟩ := List.exists_cons_of_ne_nil hoffsets
  obtain ⟨p, ps, rfl⟩ := List.exists_cons_of_ne_nil harrangement
  exact Nat.le_add_right _ _

/-- A start with a displacement within the slop is among those tried, so the search misses none that is better. -/
theorem leastDisplacement_eq (hoffsets : offsets ≠ []) (harrangement : arrangement ≠ [])
    (h : minimalDisplacement offsets arrangement ≤ slop) :
    leastDisplacement offsets slop arrangement = minimalDisplacement offsets arrangement := by
  apply Nat.le_antisymm _ (minimalDisplacement_le offsets slop arrangement)
  obtain ⟨start, hstart⟩ := (isLeast_minimalDisplacement offsets arrangement).1
  have hnear := natAbs_firstStart_sub_le hoffsets harrangement start
  rw [hstart] at hnear
  exact (isLeast_leastDisplacement offsets slop arrangement).2 ⟨start, ⟨by omega, by omega⟩, hstart⟩

theorem leastDisplacement_le_iff (hoffsets : offsets ≠ []) (harrangement : arrangement ≠ []) :
    leastDisplacement offsets slop arrangement ≤ slop ↔ minimalDisplacement offsets arrangement ≤ slop := by
  constructor
  · exact (minimalDisplacement_le offsets slop arrangement).trans
  · intro h
    rwa [leastDisplacement_eq hoffsets harrangement h]

/-- How the search around the first term finds the least displacement over all starts. -/
structure SearchExact (offsets : List UInt32) (slop : UInt32) (arrangement : List Nat) : Prop where
  /-- The starts that are tried lie around where the first term puts the start. -/
  tried : IsLeast (displacement offsets arrangement '' Set.Icc (firstStart offsets arrangement - slop.toNat)
    (firstStart offsets arrangement + slop.toNat)) (leastDisplacement offsets slop.toNat arrangement)
  within_iff : leastDisplacement offsets slop.toNat arrangement ≤ slop.toNat ↔
    minimalDisplacement offsets arrangement ≤ slop.toNat
  found : minimalDisplacement offsets arrangement ≤ slop.toNat →
    leastDisplacement offsets slop.toNat arrangement = minimalDisplacement offsets arrangement
  /-- What is found fits in a word of 32 bits. -/
  fits : minimalDisplacement offsets arrangement ≤ slop.toNat →
    (UInt32.ofNat (leastDisplacement offsets slop.toNat arrangement)).toNat = minimalDisplacement offsets arrangement

theorem searchExact {slop : UInt32} (hoffsets : offsets ≠ []) (harrangement : arrangement ≠ []) :
    SearchExact offsets slop arrangement where
  tried := isLeast_leastDisplacement offsets slop.toNat arrangement
  within_iff := leastDisplacement_le_iff hoffsets harrangement
  found := leastDisplacement_eq hoffsets harrangement
  fits hwithin := by
    rw [leastDisplacement_eq hoffsets harrangement hwithin, UInt32.toNat_ofNat']
    exact Nat.mod_eq_of_lt (hwithin.trans_lt slop.toNat_lt)

end displacement

section arrangements
variable {offsets : List UInt32} {positions : List (List Nat)} {slop : Nat}

theorem count_flatMap_cons (ps : List Nat) (rest : List (List Nat)) (p : Nat) (others : List Nat) :
    (ps.flatMap fun q => rest.map (q :: ·)).count (p :: others) = ps.count p * rest.count others := by
  have hfirst (q : Nat) : (rest.map (q :: ·)).count (p :: others) = if q = p then rest.count others else 0 := by
    split
    case isTrue hq =>
      subst hq
      exact List.count_map_of_injective rest _ List.cons_injective others
    case isFalse hq =>
      apply List.count_eq_zero.mpr
      intro hmem
      obtain ⟨_, -, heq⟩ := List.mem_map.mp hmem
      exact hq (List.cons.inj heq).1
  induction ps with
  | nil => simp
  | cons q ps ih =>
    rw [List.flatMap_cons, List.count_append, hfirst, ih, List.count_cons, Nat.add_mul, Nat.add_comm]
    by_cases hq : q = p <;> simp [hq]

/-- Every choice of positions is made once: an arrangement comes as often as there are places with its positions. -/
theorem count_arrangements {arrangement : List Nat} (h : arrangement.length = positions.length) :
    (arrangements positions).count arrangement =
      ((arrangement.zip positions).map fun (p, ps) => ps.count p).prod := by
  induction positions generalizing arrangement with
  | nil =>
    obtain rfl := List.length_eq_zero_iff.mp h
    rfl
  | cons ps rest ih =>
    obtain ⟨p, others, rfl⟩ := List.exists_cons_of_length_eq_add_one h
    rw [arrangements, count_flatMap_cons, ih (Nat.succ.inj h), List.zip_cons_cons, List.map_cons, List.prod_cons]

theorem length_of_mem_arrangements {arrangement : List Nat} (h : arrangement ∈ arrangements positions) :
    arrangement.length = positions.length :=
  (mem_arrangements.mp h).length_eq

/-- The arrangements counted are those whose least displacement over all starts is within the slop. -/
theorem contributions_eq (hoffsets : offsets ≠ []) (hpositions : positions ≠ []) :
    contributions offsets slop positions =
      ((arrangements positions).filter (minimalDisplacement offsets · ≤ slop)).map fun arrangement =>
        (arrangement, minimalDisplacement offsets arrangement) := by
  have hne {arrangement : List Nat} (h : arrangement ∈ arrangements positions) : arrangement ≠ [] := by
    apply List.ne_nil_of_length_pos
    rw [length_of_mem_arrangements h]
    exact List.length_pos_of_ne_nil hpositions
  have hcounted : (arrangements positions).filter (leastDisplacement offsets slop · ≤ slop) =
      (arrangements positions).filter (minimalDisplacement offsets · ≤ slop) := by
    apply List.filter_congr
    intro arrangement h
    exact decide_eq_decide.mpr (leastDisplacement_le_iff hoffsets (hne h))
  rw [contributions, List.filter_map]
  change ((arrangements positions).filter (leastDisplacement offsets slop · ≤ slop)).map _ = _
  rw [hcounted]
  apply List.map_congr_left
  intro arrangement h
  obtain ⟨hmem, hwithin⟩ := List.mem_filter.mp h
  rw [leastDisplacement_eq hoffsets (hne hmem) (of_decide_eq_true hwithin)]

theorem looseCount_contributions (offsets : List UInt32) (slop : Nat) (positions : List (List Nat)) :
    looseCount offsets slop positions =
      (contributions offsets slop positions).foldl (fun sum c => sum + Scoring.looseFrequency c.2) 0 := by
  have hdistances : ((arrangements positions).map (leastDisplacement offsets slop)).filter (· ≤ slop) =
      (contributions offsets slop positions).map (·.2) := by
    rw [contributions, List.filter_map, List.filter_map, List.map_map]
    rfl
  rw [looseCount_eq, hdistances, List.foldl_map]

theorem contributions_sublist (hoffsets : offsets ≠ []) (hpositions : positions ≠ []) {larger : Nat}
    (h : slop ≤ larger) :
    (contributions offsets slop positions).Sublist (contributions offsets larger positions) := by
  rw [contributions_eq hoffsets hpositions, contributions_eq hoffsets hpositions]
  apply List.Sublist.map
  apply List.monotone_filter_right
  intro arrangement hwithin
  exact decide_eq_true ((of_decide_eq_true hwithin).trans h)

end arrangements

end PhraseFrequency

namespace PhraseQuery

open PhraseFrequency

def offsets (n : PhraseQuery) : List UInt32 := n.terms.map (·.2)

/-- The search around the first term finds the least displacement of an arrangement exactly where that is within the
slop. So it counts every choice of positions with a least displacement within the slop, once and by that
displacement, and goes on to do so at any larger slop. -/
theorem looseCount_exact {n : PhraseQuery} (hne : n.terms ≠ []) {positions : List (List Nat)}
    (hlength : positions.length = n.terms.length) :
    (∀ arrangement : List Nat, arrangement.length = n.terms.length →
      SearchExact n.offsets n.slop arrangement ∧
      (arrangements positions).count arrangement =
        ((arrangement.zip positions).map fun (p, ps) => ps.count p).prod) ∧
    (∀ arrangement ∈ arrangements positions, arrangement.length = n.terms.length) ∧
    looseCount n.offsets n.slop.toNat positions =
      (contributions n.offsets n.slop.toNat positions).foldl (fun sum c => sum + Scoring.looseFrequency c.2) 0 ∧
    contributions n.offsets n.slop.toNat positions =
      ((arrangements positions).filter (minimalDisplacement n.offsets · ≤ n.slop.toNat)).map
        (fun arrangement => (arrangement, minimalDisplacement n.offsets arrangement)) ∧
    ∀ larger : Nat, n.slop.toNat ≤ larger →
      (contributions n.offsets n.slop.toNat positions).Sublist (contributions n.offsets larger positions) := by
  have hpos := List.length_pos_of_ne_nil hne
  have hoffsets : n.offsets ≠ [] := List.map_eq_nil_iff.not.mpr hne
  have hpositions : positions ≠ [] := List.ne_nil_of_length_pos (hlength ▸ hpos)
  refine ⟨fun arrangement h => ⟨?_, ?_⟩, fun arrangement h => ?_, ?_, ?_, fun larger h => ?_⟩
  · exact searchExact hoffsets (List.ne_nil_of_length_pos (h ▸ hpos))
  · exact count_arrangements (h.trans hlength.symm)
  · exact (length_of_mem_arrangements h).trans hlength
  · exact looseCount_contributions _ _ _
  · exact contributions_eq hoffsets hpositions
  · exact contributions_sublist hoffsets hpositions h

/-- A phrase of three words whose first word may stand far away. -/
def strayFirst : PhraseQuery where
  terms := [(⟨none, "alpha"⟩, 0), (⟨none, "beta"⟩, 1), (⟨none, "gamma"⟩, 2)]
  slop := 10

theorem strayFirst_looseCount_exact :
    strayFirst.terms ≠ [] ∧ [[10, 40], [1], [2]].length = strayFirst.terms.length ∧
      displacement strayFirst.offsets [10, 1, 2] (firstStart strayFirst.offsets [10, 1, 2]) = 20 ∧
      minimalDisplacement strayFirst.offsets [10, 1, 2] = 10 ∧
      contributions strayFirst.offsets 10 [[10, 40], [1], [2]] = [([10, 1, 2], 10)] ∧
      looseCount strayFirst.offsets 10 [[10, 40], [1], [2]] = 0 + Scoring.looseFrequency 10 := by
  have hne : strayFirst.terms ≠ [] := by decide
  have hlength : [[10, 40], [1], [2]].length = strayFirst.terms.length := rfl
  obtain ⟨harrangements, -, hcount, -, -⟩ := looseCount_exact hne hlength
  obtain ⟨hsearch, -⟩ := harrangements [10, 1, 2] rfl
  have hfound : leastDisplacement strayFirst.offsets 10 [10, 1, 2] = 10 := by decide
  have hcontributions : contributions strayFirst.offsets 10 [[10, 40], [1], [2]] = [([10, 1, 2], 10)] := by decide
  refine ⟨hne, hlength, by decide, ?_, hcontributions, ?_⟩
  · rw [← hsearch.found (hsearch.within_iff.mp hfound.le)]
    exact hfound
  · exact hcount.trans (congrArg _ hcontributions)

end PhraseQuery

end TextSearch
