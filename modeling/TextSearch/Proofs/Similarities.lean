import Mathlib.Data.Rat.Floor
import Mathlib.Tactic.Linarith
import TextSearch.Proofs.Collecting
import TextSearch.Proofs.Edits
import TextSearch.Proofs.Positions

/-! Similar words, measured without rounding. A search does not compare texts of too different lengths, and misses no
similar one by that: every edit changes the length by one at most. -/
namespace TextSearch

instance : Gauge ℚ where
  ofCount n := n
  whole x := ⌊x⌋₊

namespace Similarity

/-- The characters a distance is held against: the common ones and those of the shorter rest. -/
def measured (common : Nat) (rest target : List Char) : Nat := common + min rest.length target.length

/-- How similar two texts are that go on with `rest` and `target`, by the distance of these whatever their lengths. -/
def ofDistance (common : Nat) (rest target : List Char) : ℚ :=
  1 - editDistance (String.ofList rest) (String.ofList target) / measured common rest target

section rests
variable {least : ℚ} {common : Nat} {rest target : List Char}

theorem ofDistance_le_one (common : Nat) (rest target : List Char) : ofDistance common rest target ≤ 1 :=
  sub_le_self 1 (by positivity)

theorem ofDistance_eq_one_iff (h : 0 < measured common rest target) :
    ofDistance common rest target = 1 ↔ rest = target := by
  have hmeasured : (measured common rest target : ℚ) ≠ 0 := Nat.cast_ne_zero.mpr h.ne'
  rw [ofDistance, sub_eq_self, div_eq_zero_iff, or_iff_left hmeasured, Nat.cast_eq_zero, editDistance_eq_zero_iff,
    String.ofList_inj]

/-- Rests of texts that are similar enough do not differ by more characters than they may. -/
theorem max_sub_min_le_floor (h : 0 < measured common rest target) (hleast : least < ofDistance common rest target) :
    max rest.length target.length - min rest.length target.length ≤ ⌊(1 - least) * measured common rest target⌋₊ := by
  have hdifference := max_sub_min_le_editDistance (String.ofList rest) (String.ofList target)
  simp only [String.length_ofList] at hdifference
  have hdistance : (editDistance (String.ofList rest) (String.ofList target) : ℚ) <
      (1 - least) * measured common rest target := by
    rw [← div_lt_iff₀ (Nat.cast_pos.mpr h)]
    unfold ofDistance at hleast
    linarith
  exact hdifference.trans (Nat.le_floor hdistance.le)

/-- A text as far from an empty one as it is long. -/
theorem editDistance_of_min_eq_zero (h : min rest.length target.length = 0) :
    editDistance (String.ofList rest) (String.ofList target) = max rest.length target.length := by
  have hleast := max_sub_min_le_editDistance (String.ofList rest) (String.ofList target)
  have hmost := editDistance_le_max (String.ofList rest) (String.ofList target)
  simp only [String.length_ofList] at hleast hmost
  omega

/-- The similarity is that by the distance, or none at all where that one is not enough. -/
theorem ofRests_cases (least : ℚ) (common : Nat) (rest target : List Char) :
    (0 < measured common rest target ∧ ofRests least common rest target = ofDistance common rest target) ∨
      (ofRests least common rest target = 0 ∧
        ¬(0 < measured common rest target ∧ least < ofDistance common rest target)) := by
  unfold ofRests
  dsimp only [Gauge.ofCount, Gauge.whole]
  by_cases hempty : min rest.length target.length = 0
  · have hmeasured : measured common rest target = common := by rw [measured, hempty, Nat.add_zero]
    have hdistance := editDistance_of_min_eq_zero hempty
    by_cases hcommon : common = 0
    · refine .inr ⟨?_, ?_⟩
      · split_ifs <;> first | exact Nat.cast_zero | omega
      · omega
    · refine .inl ⟨by omega, ?_⟩
      rw [ofDistance, hmeasured, hdistance]
      split_ifs with hrest htarget
      · rw [hrest, Nat.zero_max, Nat.cast_one]
      · rw [htarget, Nat.max_zero, Nat.cast_one]
      · exact absurd hempty (by omega)
      · exact absurd hempty (by omega)
  · have hpos : 0 < measured common rest target := by
      unfold measured
      omega
    rw [if_neg (by omega), if_neg (by omega), Nat.add_comm, ← measured]
    split_ifs with hcut
    · refine .inr ⟨Nat.cast_zero, fun ⟨_, hleast⟩ => ?_⟩
      have hfloor := max_sub_min_le_floor hpos hleast
      rw [Nat.cast_one] at hcut
      omega
    · exact .inl ⟨hpos, by rw [ofDistance, Nat.cast_one]⟩

theorem lt_ofRests_iff (h : 0 ≤ least) : least < ofRests least common rest target ↔
    0 < measured common rest target ∧ least < ofDistance common rest target := by
  rcases ofRests_cases least common rest target with ⟨hpos, heq⟩ | ⟨heq, hnot⟩
  · rw [heq, and_iff_right hpos]
  · rw [heq]
    exact iff_of_false (not_lt.mpr h) hnot

theorem ofRests_eq (h : 0 ≤ least) (hleast : least < ofRests least common rest target) :
    ofRests least common rest target = ofDistance common rest target := by
  rcases ofRests_cases least common rest target with ⟨-, heq⟩ | ⟨heq, -⟩
  · exact heq
  · rw [heq] at hleast
    exact absurd hleast (not_lt.mpr h)

end rests

section texts
variable {least : ℚ} {n : Nat} {word text target : List Char}

theorem prefix_of_score? {score : ℚ} (h : score? least n word text = some score) : word.take n <+: text := by
  unfold score? ofTexts? at h
  by_contra hnot
  rw [if_neg (by rwa [List.isPrefixOf_iff_prefix])] at h
  exact absurd h nofun

/-- The score of a text that starts as it must. -/
theorem score?_append (h : 0 ≤ least) (score : ℚ) : score? least n word (word.take n ++ target) = some score ↔
    (0 < measured (word.take n).length (word.drop n) target ∧
        least < ofDistance (word.take n).length (word.drop n) target) ∧
      (ofDistance (word.take n).length (word.drop n) target - least) / (1 - least) = score := by
  have hstart : (word.take n).isPrefixOf (word.take n ++ target) = true := by
    rw [List.isPrefixOf_iff_prefix]
    exact List.prefix_append _ _
  unfold score? ofTexts?
  dsimp only [Gauge.ofCount]
  rw [if_pos hstart, List.drop_left, Option.bind_eq_bind, Option.bind_some, ← lt_ofRests_iff h, Nat.cast_one,
    ← div_eq_mul_one_div]
  split_ifs with hleast
  · rw [and_iff_right hleast, Option.some_inj, ofRests_eq h hleast]
  · exact iff_of_false nofun fun hnot => hleast hnot.1

/-- A share of what there is above a minimum below one. -/
theorem share_bounds (hmost : least < 1) {s : ℚ} (hleast : least < s) (hs : s ≤ 1) :
    (0 < (s - least) / (1 - least) ∧ (s - least) / (1 - least) ≤ 1) ∧ ((s - least) / (1 - least) = 1 ↔ s = 1) := by
  have hwhole : 0 < 1 - least := sub_pos.mpr hmost
  refine ⟨⟨div_pos (sub_pos.mpr hleast) hwhole, (div_le_one hwhole).mpr (sub_le_sub_right hs least)⟩, ?_⟩
  rw [div_eq_one_iff_eq hwhole.ne', sub_left_inj]

end texts

end Similarity

open Similarity in
/-- A search for similar words keeps just the texts whose similarity, by the distance of what follows the common start,
is more than the least: those left out without a comparison, or compared with nothing, are the ones that would not be
similar enough. The scores are positive, and only the word itself has the highest. -/
theorem Index.similarTerms_complete (ix : Index) (fields : List String) (limit n : Nat) (word : String) (least : ℚ)
    (h : 0 ≤ least) (hmost : least < 1) :
    ∃ found, ix.similarTerms fields limit least n word = withinLimit limit found ∧
      (∀ t, ix.Knows fields t → ∀ target, t.text.toList = word.toList.take n ++ target →
        ((∃ score, (t, score) ∈ found) ↔
          0 < measured (word.toList.take n).length (word.toList.drop n) target ∧
            least < ofDistance (word.toList.take n).length (word.toList.drop n) target)) ∧
      ∀ t score, (t, score) ∈ found →
        ix.Knows fields t ∧ word.toList.take n <+: t.text.toList ∧ (0 < score ∧ score ≤ 1) ∧
          (score = 1 ↔ t.text = word) := by
  have hmem (t : Term) (score : ℚ) :
      (t, score) ∈ (ix.termsIn fields).filterMap
          (fun t => (score? least n word.toList t.text.toList).map (t, ·)) ↔
        ix.Knows fields t ∧ score? least n word.toList t.text.toList = some score := by
    rw [List.mem_filterMap, ← mem_termsIn]
    constructor
    · rintro ⟨u, hu, heq⟩
      obtain ⟨s, hs, heq⟩ := Option.map_eq_some_iff.mp heq
      cases heq
      exact ⟨hu, hs⟩
    · rintro ⟨ht, hscore⟩
      exact ⟨t, ht, Option.map_eq_some_iff.mpr ⟨score, hscore, rfl⟩⟩
  refine ⟨_, ix.collect_eq fields limit _, fun t ht target htarget => ?_, fun t score hfound => ?_⟩
  · simp only [hmem, htarget, score?_append h, and_iff_right ht]
    exact ⟨fun ⟨_, hsimilar, _⟩ => hsimilar, fun hsimilar => ⟨_, hsimilar, rfl⟩⟩
  · obtain ⟨ht, hscore⟩ := (hmem t score).mp hfound
    obtain ⟨target, htarget⟩ := prefix_of_score? hscore
    rw [← htarget, score?_append h] at hscore
    obtain ⟨⟨hpos, hleast⟩, rfl⟩ := hscore
    obtain ⟨hbounds, hone⟩ := share_bounds hmost hleast (ofDistance_le_one _ _ _)
    refine ⟨ht, ⟨target, htarget⟩, hbounds, ?_⟩
    rw [hone, ofDistance_eq_one_iff hpos, ← String.toList_inj, ← htarget,
      ← List.append_cancel_left_eq (word.toList.take n) (word.toList.drop n) target, List.take_append_drop, eq_comm]

/-- Two words of which one is much longer than the other. -/
def rustyWords : Index := .ofChanges (.ofConfig .bare {}) [.document [("f", .keyword "rust"), ("f", .keyword "rustication")]]

theorem similarTerms_roust : (0 : ℚ) ≤ 1 / 2 ∧ (1 / 2 : ℚ) < 1 ∧
    ∃ found, rustyWords.similarTerms ["f"] 0 (1 / 2 : ℚ) 1 "roust" = withinLimit 0 found ∧
      (∃ score, (Term.inField "f" "rust", score) ∈ found) ∧
      ¬∃ score, (Term.inField "f" "rustication", score) ∈ found := by
  have hknows (text : String) (h : text ∈ rustyWords.vocabulary "f") : rustyWords.Knows ["f"] (.inField "f" text) :=
    ⟨"f", List.mem_singleton_self _, text, h, rfl⟩
  obtain ⟨found, hfound, hkept, -⟩ :=
    rustyWords.similarTerms_complete ["f"] 0 1 "roust" (1 / 2) (by norm_num) (by norm_num)
  refine ⟨by norm_num, by norm_num, found, hfound, ?_, ?_⟩
  · exact (hkept _ (hknows "rust" (by decide +kernel)) "ust".toList (by decide)).mpr (by decide +kernel)
  · exact (hkept _ (hknows "rustication" (by decide +kernel)) "ustication".toList (by decide)).not.mpr
      (by decide +kernel)

end TextSearch
