import Mathlib.Data.Finset.Card
import Mathlib.Data.List.Nodup
import Mathlib.Data.Set.Card
import TextSearch.Proofs.LooseCounts

/-! A phrase without a slop. The occurrences counted from the positions of one term are the starts from which every term
stands at its offset, whichever term it is, and the choices of positions with no term out of place. -/
namespace TextSearch

namespace PhraseFrequency

/-- The positions of a term from which every other one is found at its offset. -/
def counted (placements : List Placement) (anchor : Nat) : List Nat :=
  match placements[anchor]? with
  | none => []
  | some (offset, positions) =>
    positions.filter fun position => (placements.eraseIdx anchor).all (standsRight offset position)

theorem exactCount_eq_length_counted (placements : List Placement) :
    exactCount placements = (counted placements (rarest placements)).length := by
  rw [exactCount, counted]
  cases placements[rarest placements]? <;> rfl

/-- A term has a position at its offset from a start. The start may lie before the text. -/
def StandsFrom (start : Int) (p : Placement) : Prop := ∃ position ∈ p.2, (position : Int) = start + p.1.toNat

/-- Where a term with an offset puts the start if it stands at a position. -/
def startAt (offset : UInt32) (position : Nat) : Int := position - offset.toNat

/-- The starts from which every term stands at its offset. -/
def starts (placements : List Placement) : Set Int := {start | ∀ p ∈ placements, StandsFrom start p}

/-- Positions in ascending order. They and the offset are less than half of what a word of 32 bits can hold. -/
structure Regular (p : Placement) : Prop where
  increasing : p.2.Pairwise (· < ·)
  offset_lt : p.1.toNat < 2147483648
  position_lt : ∀ position ∈ p.2, position < 2147483648

section anchors
variable {placements : List Placement}

/-- No word overflows where a term is looked for. -/
theorem standsRight_iff {p : Placement} {offset : UInt32} {position : Nat} (hp : p.1.toNat < 2147483648)
    (hposition : position < 2147483648) :
    standsRight offset position p = true ↔ StandsFrom (startAt offset position) p := by
  have hsize : UInt32.size = 4294967296 := rfl
  unfold standsRight StandsFrom startAt
  simp only [Bool.and_eq_true, decide_eq_true_eq, List.contains_iff_mem]
  constructor
  · rintro ⟨hstart, hmem⟩
    rw [Nat.mod_eq_of_lt (by omega)] at hmem
    exact ⟨_, hmem, by omega⟩
  · rintro ⟨found, hmem, hfound⟩
    have hexpected : ((position : Int) + p.1.toNat - offset.toNat).toNat % UInt32.size = found := by
      rw [Nat.mod_eq_of_lt (by omega)]
      omega
    exact ⟨by omega, hexpected ▸ hmem⟩

theorem mem_starts_iff_anchor {anchor : Nat} (h : anchor < placements.length) (start : Int) :
    start ∈ starts placements ↔
      StandsFrom start placements[anchor] ∧ ∀ p ∈ placements.eraseIdx anchor, StandsFrom start p := by
  have hperm := List.getElem_cons_eraseIdx_perm h
  rw [← List.forall_mem_cons]
  exact ⟨fun hall p hp => hall p (hperm.mem_iff.mp hp), fun hall p hp => hall p (hperm.mem_iff.mpr hp)⟩

/-- A start has one position of the anchor, so the positions that are counted are as many as the starts. -/
theorem length_counted (hregular : ∀ p ∈ placements, Regular p) {anchor : Nat} (h : anchor < placements.length) :
    (starts placements).Finite ∧ (counted placements anchor).length = (starts placements).ncard := by
  rcases hp : placements[anchor] with ⟨offset, positions⟩
  have hanchor : Regular (offset, positions) := hp ▸ hregular _ (List.getElem_mem h)
  have hcounted : counted placements anchor =
      positions.filter fun position => (placements.eraseIdx anchor).all (standsRight offset position) := by
    rw [counted, List.getElem?_eq_getElem h, hp]
  rw [hcounted]
  generalize hfound : (positions.filter fun position =>
    (placements.eraseIdx anchor).all (standsRight offset position)) = found
  have hnodup : (found.map (startAt offset)).Nodup := by
    apply List.Nodup.map
    · intro p q hpq
      unfold startAt at hpq
      omega
    · exact hfound ▸ (hanchor.increasing.imp Nat.ne_of_lt).filter _
  have hstarts : starts placements = ((found.map (startAt offset)).toFinset : Set Int) := by
    subst hfound
    ext start
    rw [mem_starts_iff_anchor h, hp, Finset.mem_coe, List.mem_toFinset, List.mem_map]
    have hall {position : Nat} (hposition : position ∈ positions) :
        (placements.eraseIdx anchor).all (standsRight offset position) = true ↔
          ∀ p ∈ placements.eraseIdx anchor, StandsFrom (startAt offset position) p := by
      rw [List.all_eq_true]
      refine forall₂_congr fun p hmem => standsRight_iff ?_ (hanchor.position_lt position hposition)
      exact (hregular p (List.mem_of_mem_eraseIdx hmem)).offset_lt
    constructor
    · rintro ⟨⟨position, hposition, hstart⟩, hothers⟩
      obtain rfl : startAt offset position = start := by
        unfold startAt
        dsimp only at hstart
        omega
      exact ⟨position, List.mem_filter.mpr ⟨hposition, (hall hposition).mpr hothers⟩, rfl⟩
    · rintro ⟨position, hmem, rfl⟩
      obtain ⟨hposition, hothers⟩ := List.mem_filter.mp hmem
      exact ⟨⟨position, hposition, (Int.sub_add_cancel _ _).symm⟩, (hall hposition).mp hothers⟩
  rw [hstarts, Set.ncard_coe_finset, List.toFinset_card_of_nodup hnodup, List.length_map]
  exact ⟨Finset.finite_toSet _, rfl⟩

theorem rarest_lt_length (hne : placements ≠ []) : rarest placements < placements.length := by
  obtain ⟨p, hp⟩ := List.exists_mem_of_ne_nil placements hne
  obtain ⟨q, hq, -⟩ := rarest_le hp
  exact (List.getElem?_eq_some_iff.mp hq).1

end anchors

section arrangements
variable {offsets : List UInt32} {positions : List (List Nat)}

theorem arrangements_nodup (h : ∀ ps ∈ positions, ps.Pairwise (· < ·)) : (arrangements positions).Nodup := by
  induction positions with
  | nil => exact List.nodup_singleton _
  | cons ps rest ih =>
    obtain ⟨hps, hrest⟩ := List.forall_mem_cons.mp h
    rw [arrangements, List.nodup_flatMap]
    refine ⟨fun p _ => (ih hrest).map List.cons_injective, hps.imp fun hlt => ?_⟩
    intro arrangement hp hq
    obtain ⟨others, -, rfl⟩ := List.mem_map.mp hp
    obtain ⟨_, -, heq⟩ := List.mem_map.mp hq
    exact Nat.ne_of_gt hlt (List.cons.inj heq).1

/-- Where the terms stand from a start. -/
def placesFrom (offsets : List UInt32) (start : Int) : List Nat := offsets.map fun o => (start + o.toNat).toNat

/-- No term of an arrangement is out of place from a start if all terms stand there from this start. -/
theorem displacement_eq_zero_iff (hlength : positions.length = offsets.length) {arrangement : List Nat} {start : Int} :
    arrangement ∈ arrangements positions ∧ displacement offsets arrangement start = 0 ↔
      start ∈ starts (offsets.zip positions) ∧ arrangement = placesFrom offsets start := by
  induction offsets generalizing positions arrangement with
  | nil =>
    obtain rfl := List.length_eq_zero_iff.mp hlength
    simp +contextual [arrangements, displacement, starts, placesFrom]
  | cons o os ih =>
    obtain ⟨ps, rest, rfl⟩ := List.exists_cons_of_length_eq_add_one hlength
    replace ih := @ih rest (Nat.succ.inj hlength)
    have hstarts : start ∈ starts ((o :: os).zip (ps :: rest)) ↔
        StandsFrom start (o, ps) ∧ start ∈ starts (os.zip rest) := List.forall_mem_cons
    cases arrangement with
    | nil => simp [arrangements, placesFrom]
    | cons p others =>
      have hmem : p :: others ∈ arrangements (ps :: rest) ↔ p ∈ ps ∧ others ∈ arrangements rest := by
        simp [mem_arrangements]
      have hzero : displacement (o :: os) (p :: others) start = 0 ↔
          (p : Int) = start + o.toNat ∧ displacement os others start = 0 := by
        change ((p : Int) - o.toNat - start).natAbs + displacement os others start = 0 ↔ _
        omega
      have hplaces : p :: others = placesFrom (o :: os) start ↔
          p = (start + o.toNat).toNat ∧ others = placesFrom os start := List.cons_eq_cons
      rw [hmem, hzero, hstarts, hplaces]
      constructor
      · rintro ⟨⟨hp, hothers⟩, hplace, hrest⟩
        obtain ⟨hfrom, rfl⟩ := ih.mp ⟨hothers, hrest⟩
        exact ⟨⟨⟨p, hp, hplace⟩, hfrom⟩, by omega, rfl⟩
      · rintro ⟨⟨⟨q, hq, hplace⟩, hfrom⟩, rfl, rfl⟩
        obtain ⟨hothers, hrest⟩ := ih.mpr ⟨hfrom, rfl⟩
        dsimp only at hplace
        have hplaced : (start + o.toNat).toNat = q := by omega
        exact ⟨⟨hplaced ▸ hq, hothers⟩, by omega, hrest⟩

theorem minimalDisplacement_eq_zero_iff (offsets : List UInt32) (arrangement : List Nat) :
    minimalDisplacement offsets arrangement = 0 ↔ ∃ start, displacement offsets arrangement start = 0 := by
  obtain ⟨⟨start, hstart⟩, hleast⟩ := isLeast_minimalDisplacement offsets arrangement
  constructor
  · intro h
    exact ⟨start, hstart.trans h⟩
  · rintro ⟨start, h⟩
    exact Nat.le_zero.mp (h ▸ hleast ⟨start, rfl⟩)

/-- The arrangements with no term out of place are as many as the starts. -/
theorem length_inPlace (hoffsets : offsets ≠ []) (hlength : positions.length = offsets.length)
    (hincreasing : ∀ ps ∈ positions, ps.Pairwise (· < ·)) :
    ((arrangements positions).filter (minimalDisplacement offsets · = 0)).length =
      (starts (offsets.zip positions)).ncard := by
  have hnodup := (arrangements_nodup hincreasing).filter (minimalDisplacement offsets · = 0)
  have himage : (((arrangements positions).filter (minimalDisplacement offsets · = 0)).toFinset : Set (List Nat)) =
      placesFrom offsets '' starts (offsets.zip positions) := by
    ext arrangement
    rw [Finset.mem_coe, List.mem_toFinset, List.mem_filter, decide_eq_true_eq, minimalDisplacement_eq_zero_iff]
    constructor
    · rintro ⟨hmem, start, hzero⟩
      obtain ⟨hstart, rfl⟩ := (displacement_eq_zero_iff hlength).mp ⟨hmem, hzero⟩
      exact ⟨start, hstart, rfl⟩
    · rintro ⟨start, hstart, rfl⟩
      obtain ⟨hmem, hzero⟩ := (displacement_eq_zero_iff hlength).mpr ⟨hstart, rfl⟩
      exact ⟨hmem, start, hzero⟩
  have hinjective : Set.InjOn (placesFrom offsets) (starts (offsets.zip positions)) := by
    obtain ⟨o, os, rfl⟩ := List.exists_cons_of_ne_nil hoffsets
    obtain ⟨ps, rest, rfl⟩ := List.exists_cons_of_length_eq_add_one hlength
    intro s hs t ht hst
    obtain ⟨p, -, hp⟩ := hs (o, ps) List.mem_cons_self
    obtain ⟨q, -, hq⟩ := ht (o, ps) List.mem_cons_self
    have hfirst : (s + o.toNat).toNat = (t + o.toNat).toNat := (List.cons.inj hst).1
    dsimp only at hp hq
    omega
  rw [← List.toFinset_card_of_nodup hnodup, ← Set.ncard_coe_finset, himage, hinjective.ncard_image]

/-- With a slop, the arrangements counted at no distance are those with no term out of place. -/
theorem length_contributions_zero (hoffsets : offsets ≠ []) (hpositions : positions ≠ []) (slop : Nat) :
    ((contributions offsets slop positions).filter (·.2 = 0)).length =
      ((arrangements positions).filter (minimalDisplacement offsets · = 0)).length := by
  rw [contributions_eq hoffsets hpositions, List.filter_map, List.length_map, List.filter_filter]
  refine congrArg List.length (List.filter_congr fun arrangement _ => ?_)
  simp only [Function.comp_apply, ← Bool.decide_and, decide_eq_decide]
  omega

end arrangements

end PhraseFrequency

namespace PhraseQuery

open PhraseFrequency

/-- The occurrences of a phrase without a slop are the starts from which every term stands at its offset, whichever
term they are looked for from. They are also the choices of positions with no term out of place, which a slop counts
at no distance. -/
theorem exactCount_starts {n : PhraseQuery} (hne : n.terms ≠ []) {positions : List (List Nat)}
    (hlength : positions.length = n.terms.length)
    (hregular : ∀ p ∈ n.offsets.zip positions, Regular p) :
    (starts (n.offsets.zip positions)).Finite ∧
    exactCount (n.offsets.zip positions) = (starts (n.offsets.zip positions)).ncard ∧
    (∀ anchor < n.terms.length,
      (counted (n.offsets.zip positions) anchor).length = exactCount (n.offsets.zip positions)) ∧
    ((arrangements positions).filter (minimalDisplacement n.offsets · = 0)).length =
      exactCount (n.offsets.zip positions) ∧
    ∀ slop : Nat, ((contributions n.offsets slop positions).filter (·.2 = 0)).length =
      exactCount (n.offsets.zip positions) := by
  have hpos := List.length_pos_of_ne_nil hne
  have hoffsets : n.offsets ≠ [] := List.map_eq_nil_iff.not.mpr hne
  have hpositions : positions ≠ [] := List.ne_nil_of_length_pos (hlength ▸ hpos)
  have hterms : n.offsets.length = n.terms.length := List.length_map _
  have hzip : (n.offsets.zip positions).length = n.terms.length := by simp [hterms, hlength]
  have hanchor := rarest_lt_length (List.ne_nil_of_length_pos (hzip ▸ hpos))
  have hincreasing : ∀ ps ∈ positions, ps.Pairwise (· < ·) := by
    intro ps hps
    rw [← List.map_snd_zip (hlength.trans hterms.symm).le] at hps
    obtain ⟨p, hp, rfl⟩ := List.mem_map.mp hps
    exact (hregular p hp).increasing
  obtain ⟨hfinite, hcount⟩ := length_counted hregular hanchor
  rw [← exactCount_eq_length_counted] at hcount
  have hplaced := length_inPlace hoffsets (hlength.trans hterms.symm) hincreasing
  refine ⟨hfinite, hcount, fun anchor h => ?_, hplaced.trans hcount.symm, fun slop => ?_⟩
  · exact (length_counted hregular (hzip.symm ▸ h)).2.trans hcount.symm
  · exact (length_contributions_zero hoffsets hpositions slop).trans (hplaced.trans hcount.symm)

/-- A phrase that says a word twice at one offset, behind a word it has at an earlier one. -/
def repeatedWord : PhraseQuery where
  terms := [(⟨none, "again"⟩, 2), (⟨none, "once"⟩, 1), (⟨none, "again"⟩, 2)]

theorem repeatedWord_exactCount_starts :
    repeatedWord.terms ≠ [] ∧ [[1, 5, 9], [0, 4], [1, 5, 9]].length = repeatedWord.terms.length ∧
      (∀ p ∈ repeatedWord.offsets.zip [[1, 5, 9], [0, 4], [1, 5, 9]], Regular p) ∧
      (starts (repeatedWord.offsets.zip [[1, 5, 9], [0, 4], [1, 5, 9]])).ncard = 2 ∧
      (counted (repeatedWord.offsets.zip [[1, 5, 9], [0, 4], [1, 5, 9]]) 0).length = 2 ∧
      ((contributions repeatedWord.offsets 3 [[1, 5, 9], [0, 4], [1, 5, 9]]).filter (·.2 = 0)).length = 2 := by
  have hne : repeatedWord.terms ≠ [] := by decide
  have hlength : [[1, 5, 9], [0, 4], [1, 5, 9]].length = repeatedWord.terms.length := rfl
  have hregular : ∀ p ∈ repeatedWord.offsets.zip [[1, 5, 9], [0, 4], [1, 5, 9]], Regular p := by
    intro p hp
    simp only [repeatedWord, offsets, List.map_cons, List.map_nil, List.zip_cons_cons, List.zip_nil_right,
      List.mem_cons, List.not_mem_nil, or_false] at hp
    rcases hp with rfl | rfl | rfl <;> exact ⟨by decide, by decide, by decide⟩
  obtain ⟨-, hstarts, hanchors, -, hslop⟩ := exactCount_starts hne hlength hregular
  have hcount : exactCount (repeatedWord.offsets.zip [[1, 5, 9], [0, 4], [1, 5, 9]]) = 2 := by decide
  refine ⟨hne, hlength, hregular, hstarts.symm.trans hcount, ?_, (hslop 3).trans hcount⟩
  exact (hanchors 0 (by decide)).trans hcount

end PhraseQuery

end TextSearch
