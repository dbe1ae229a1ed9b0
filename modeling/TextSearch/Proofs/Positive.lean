import Mathlib
import TextSearch.Index.Scoring

/-! Sums in single precision do not lose their sign: no rounding takes a sum of numbers that are not negative
below zero, or to zero if one of them is positive. -/
namespace TextSearch.Scoring

open Float.Model Float.Model.UnpackedFloat

section rounding

theorem binary32_targetExponent (t : Int) : Format.binary32.targetExponent t = max (t - 24) (-149) := rfl

theorem mantissa_shift (em : ExtendedMantissa) (k : Nat) : (em >>> k).mantissa = em.mantissa / 2 ^ k := by
  induction k with
  | zero => exact (Nat.div_one _).symm
  | succ k ih =>
    change (em >>> k).mantissa / 2 = _
    rw [ih, Nat.div_div_eq_div_mul, Nat.pow_succ]

theorem mantissa_ofMantissaAndAccuracy (m : Nat) (a : Accuracy) :
    (ExtendedMantissa.ofMantissaAndAccuracy m a).mantissa = m := by
  cases a with
  | exact => rfl
  | inexact side => cases side <;> rfl

theorem le_roundToNearestEven (m : Nat) (a : Accuracy) : m ≤ a.roundToNearestEven m := by
  cases a with
  | exact => exact Nat.le_refl m
  | inexact side => cases side <;> simp only [Accuracy.roundToNearestEven] <;> omega

theorem shiftToTargetExponent_fst (m : Nat) (e : Int) (a : Accuracy) :
    (shiftToTargetExponent Format.binary32 m e a).1.mantissa =
      m / 2 ^ (max (totalExponent m e - 24) (-149) - e).toNat := by
  simp only [shiftToTargetExponent, shiftToExponent, mantissa_shift, mantissa_ofMantissaAndAccuracy,
    binary32_targetExponent]

theorem shiftToTargetExponent_snd (m : Nat) (e : Int) (a : Accuracy) :
    (shiftToTargetExponent Format.binary32 m e a).2 = max (max (totalExponent m e - 24) (-149)) e := by
  simp only [shiftToTargetExponent, shiftToExponent, binary32_targetExponent]
  omega

/-- A number that is no smaller than the smallest one of the format is not shifted to zero. -/
theorem shifted_bounds {m : Nat} {e : Int} (hm : 0 < m) (he : -148 ≤ totalExponent m e) :
    0 < m / 2 ^ (max (totalExponent m e - 24) (-149) - e).toNat ∧
      m / 2 ^ (max (totalExponent m e - 24) (-149) - e).toNat < 2 ^ 24 := by
  have hlow : 2 ^ m.log2 ≤ m := Nat.log2_self_le (Nat.ne_of_gt hm)
  have hhigh : m < 2 ^ (m.log2 + 1) := Nat.lt_log2_self
  unfold totalExponent at he ⊢
  generalize m.log2 = l at *
  generalize hk : (max ((l : Int) + 1 + e - 24) (-149) - e).toNat = k
  constructor
  · have hkl : k ≤ l := by omega
    exact Nat.div_pos ((Nat.pow_le_pow_right Nat.two_pos hkl).trans hlow) (Nat.two_pow_pos k)
  · have hlk : l + 1 ≤ 24 + k := by omega
    rw [Nat.div_lt_iff_lt_mul (Nat.two_pow_pos k), ← Nat.pow_add]
    exact hhigh.trans_le (Nat.pow_le_pow_right Nat.two_pos hlk)

/-- A number that is no smaller than the smallest one of the format is rounded to a finite one that is not
zero. -/
theorem roundWithAccuracy_finite {m : Nat} {e : Int} (hm : 0 < m) (he : -148 ≤ totalExponent m e) (s : Sign)
    (a : Accuracy) :
    ∃ m' e' h, roundWithAccuracy Format.binary32 s m e a = .finite s m' e' h ∧ m' < 2 ^ 24 ∧ -149 ≤ e' := by
  have hfirst := shiftToTargetExponent_fst m e a
  have hexponent := shiftToTargetExponent_snd m e a
  unfold roundWithAccuracy
  generalize shiftToTargetExponent Format.binary32 m e a = shifted at *
  obtain ⟨em, e₁⟩ := shifted
  dsimp only at *
  have hrounded : 0 < em.roundedMantissa := by
    have hpos := (shifted_bounds hm he).1
    rw [← hfirst] at hpos
    exact hpos.trans_le (le_roundToNearestEven _ _)
  have htotal : -148 ≤ totalExponent em.roundedMantissa e₁ := by
    unfold totalExponent
    omega
  obtain ⟨hpos, hlt⟩ := shifted_bounds hrounded htotal
  rw [← shiftToTargetExponent_fst _ _ .exact] at hpos hlt
  have hlast := shiftToTargetExponent_snd em.roundedMantissa e₁ .exact
  rw [dif_neg (Nat.ne_of_gt hpos)]
  exact ⟨_, _, hpos, rfl, hlt, by omega⟩

theorem round_finite {m : Nat} {e : Int} (hm : 0 < m) (he : -149 ≤ e) (s : Sign) :
    ∃ m' e' h, round Format.binary32 s m e = .finite s m' e' h ∧ m' < 2 ^ 24 ∧ -149 ≤ e' := by
  unfold UnpackedFloat.round decreaseExponent
  dsimp only
  rw [binary32_targetExponent, Nat.shiftLeft_eq]
  refine roundWithAccuracy_finite (Nat.mul_pos hm (Nat.two_pow_pos _)) ?_ s .exact
  unfold totalExponent
  omega

theorem roundWithAccuracy_cases (m : Nat) (e : Int) (s : Sign) (a : Accuracy) :
    roundWithAccuracy Format.binary32 s m e a = .zero s ∨
      ∃ m' e' h, roundWithAccuracy Format.binary32 s m e a = .finite s m' e' h := by
  unfold roundWithAccuracy
  dsimp only
  split
  case isTrue => exact .inl rfl
  case isFalse h => exact .inr ⟨_, _, Nat.pos_of_ne_zero h, rfl⟩

end rounding

section packing

theorem append_one_pos (m : BitVec 23) : 0 < (1#1 ++ m).toNat := by
  rw [BitVec.toNat_append]
  exact Nat.lt_of_lt_of_le (by decide) Nat.left_le_or

/-- Fields with an exponent below that of infinity stand for a finite number, which is zero only if all of its
bits are. -/
theorem unpack_packComponents (s : Sign) {e : BitVec 8} (he : e ≠ -1#8) (m : BitVec 23) :
    (e = 0 ∧ m = 0 ∧ UnpackedFloat.unpack Format.binary32 (packComponents _ s e m) = .zero s) ∨
      ∃ m' e' h, UnpackedFloat.unpack Format.binary32 (packComponents _ s e m) = .finite s m' e' h := by
  simp only [UnpackedFloat.unpack, unpackMantissa_packComponents, unpackExponent_packComponents,
    unpackSign_packComponents, Sign.ofBitVec_toBitVec, if_neg he]
  split
  case isTrue hzero =>
    split
    case isTrue hm => exact .inl ⟨hzero, hm, rfl⟩
    case isFalse hm => exact .inr ⟨_, _, BitVec.toNat_pos_of_ne_zero hm, rfl⟩
  case isFalse => exact .inr ⟨_, _, append_one_pos m, rfl⟩

/-- Finite numbers are read with a mantissa and an exponent of the format. -/
theorem range_of_unpack {b : BitVec 32} {s : Sign} {m : Nat} {e : Int} {h : 0 < m}
    (hb : UnpackedFloat.unpack Format.binary32 b = .finite s m e h) : m < 2 ^ 24 ∧ -149 ≤ e := by
  have hbias : (Format.binary32.exponentBias : Int) = 127 := rfl
  unfold UnpackedFloat.unpack at hb
  dsimp only at hb
  split at hb
  · split at hb <;> cases hb
  split at hb
  · split at hb
    · cases hb
    · injection hb with _ hm
      have hlt := (@unpackMantissa Format.binary32 b).isLt
      omega
  · rename_i hzero
    have hpos := BitVec.toNat_pos_of_ne_zero hzero
    injection hb with _ hm
    have hlt := (1#1 ++ @unpackMantissa Format.binary32 b).isLt
    omega

/-- A finite number is packed as infinity or as fields that are not all zero. -/
theorem pack_finite (s : Sign) (m : Nat) (e : Int) (h : 0 < m) :
    UnpackedFloat.pack Format.binary32 (.finite s m e h) = packedInfinity _ s ∨
      ∃ (e' : BitVec 8) (m' : BitVec 23), e' ≠ -1#8 ∧ (m < 2 ^ 24 → -149 ≤ e → e' ≠ 0 ∨ m' ≠ 0) ∧
        UnpackedFloat.pack Format.binary32 (.finite s m e h) = packComponents _ s e' m' := by
  have hbias : (Format.binary32.exponentBias : Int) = 127 := rfl
  have hbits : Format.binary32.mantissaBits = 24 := rfl
  unfold UnpackedFloat.pack
  dsimp only
  rw [hbias, hbits]
  split
  case isTrue => exact .inl rfl
  case isFalse hfits =>
    split
    case isTrue hnormal =>
      refine .inr ⟨_, _, fun hinf => ?_, fun _ he => .inl fun hzero => ?_, rfl⟩
      · have hexp := congrArg BitVec.toNat hinf
        simp at hexp
        omega
      · have hexp := congrArg BitVec.toNat hzero
        simp at hexp
        omega
    case isFalse hsubnormal =>
      refine .inr ⟨_, _, by decide, fun hm _ => .inr fun hzero => ?_, rfl⟩
      have hlog : m.log2 < 23 := by
        have := (Nat.log2_lt (Nat.ne_of_gt h)).mpr hm
        omega
      have hman := congrArg BitVec.toNat hzero
      rw [BitVec.toNat_ofNat, Nat.mod_eq_of_lt ((Nat.log2_lt (Nat.ne_of_gt h)).mp hlog)] at hman
      exact Nat.ne_of_gt h hman

end packing

section signs

/-- Not below zero. -/
def NonNeg (u : UnpackedFloat) : Prop := (UnpackedFloat.zero .positive).le u = true

/-- Above zero. -/
def Pos (u : UnpackedFloat) : Prop := (UnpackedFloat.zero .positive).lt u = true

theorem pos_iff {u : UnpackedFloat} :
    Pos u ↔ u = .infinity .positive ∨ ∃ m e h, u = .finite .positive m e h := by
  rcases u with (_ | _) | _ | _ | ⟨_ | _, m, e, h⟩ <;>
    simp [Pos, UnpackedFloat.lt, UnpackedFloat.compare]
  exact h

theorem nonNeg_iff {u : UnpackedFloat} : NonNeg u ↔ (∃ s, u = .zero s) ∨ Pos u := by
  rcases u with (_ | _) | _ | _ | ⟨_ | _, m, e, h⟩ <;>
    simp [NonNeg, Pos, UnpackedFloat.le, UnpackedFloat.lt, UnpackedFloat.compare]

/-- A number as it is read back after it was packed. -/
def repack (u : UnpackedFloat) : UnpackedFloat := (Float32.Model.pack u).unpack

theorem repack_zero (s : Sign) : repack (.zero s) = .zero s := by cases s <;> rfl

theorem repack_infinity (s : Sign) : repack (.infinity s) = .infinity s := by cases s <;> rfl

theorem repack_finite (s : Sign) (m : Nat) (e : Int) (h : 0 < m) :
    repack (.finite s m e h) = .infinity s ∨ (∃ m' e' h', repack (.finite s m e h) = .finite s m' e' h') ∨
      (repack (.finite s m e h) = .zero s ∧ (m < 2 ^ 24 → ¬ -149 ≤ e)) := by
  have hrepack : repack (.finite s m e h) = UnpackedFloat.unpack Format.binary32
      (UnpackedFloat.pack Format.binary32 (.finite s m e h)) := rfl
  rw [hrepack]
  rcases pack_finite s m e h with hp | ⟨e', m', he', hne, hp⟩
  · rw [hp]
    exact .inl (repack_infinity s)
  · rw [hp]
    rcases unpack_packComponents s he' m' with ⟨rfl, rfl, hu⟩ | hu
    · refine .inr (.inr ⟨hu, fun hm he => ?_⟩)
      simpa using hne hm he
    · exact .inr (.inl hu)

theorem NonNeg.repack {u : UnpackedFloat} (hu : NonNeg u) : NonNeg (repack u) := by
  rcases nonNeg_iff.mp hu with ⟨s, rfl⟩ | hpos
  · rw [repack_zero]
    exact hu
  rcases pos_iff.mp hpos with rfl | ⟨m, e, h, rfl⟩
  · rw [repack_infinity]
    exact hu
  · rw [nonNeg_iff, pos_iff]
    rcases repack_finite .positive m e h with hr | hr | ⟨hr, -⟩
    · exact .inr (.inl hr)
    · exact .inr (.inr hr)
    · exact .inl ⟨_, hr⟩

/-- A number within the range of the format stays above zero when it is packed. -/
theorem pos_repack_finite {m : Nat} {e : Int} {h : 0 < m} (hm : m < 2 ^ 24) (he : -149 ≤ e) :
    Pos (repack (.finite .positive m e h)) := by
  rw [pos_iff]
  rcases repack_finite .positive m e h with hr | hr | ⟨-, hrange⟩
  · exact .inl hr
  · exact .inr hr
  · exact absurd he (hrange hm)

theorem pos_repack_infinity : Pos (repack (.infinity .positive)) := rfl

theorem pos_repack_roundWithAccuracy {m : Nat} {e : Int} (hm : 0 < m) (he : -148 ≤ totalExponent m e)
    (a : Accuracy) : Pos (repack (roundWithAccuracy Format.binary32 .positive m e a)) := by
  obtain ⟨m', e', h, hr, hlt, hle⟩ := roundWithAccuracy_finite hm he .positive a
  rw [hr]
  exact pos_repack_finite hlt hle

end signs

section sums

theorem unpack_zero : (0 : Float32).toModel.unpack = .zero .positive := by rfl

theorem unpack_one : (1 : Float32).toModel.unpack = .finite .positive (2 ^ 23) (-23) (by decide) := by rfl

theorem nonneg_iff {x : Float32} : 0 ≤ x ↔ NonNeg x.toModel.unpack := by
  rw [NonNeg, ← unpack_zero]
  exact decide_eq_true_iff

theorem zero_lt_iff {x : Float32} : 0 < x ↔ Pos x.toModel.unpack := by
  rw [Pos, ← unpack_zero]
  exact decide_eq_true_iff

theorem unpack_add (x y : Float32) : (x + y).toModel.unpack =
    repack (UnpackedFloat.add Format.binary32 x.toModel.unpack y.toModel.unpack) := rfl

theorem unpack_mul (x y : Float32) : (x * y).toModel.unpack =
    repack (UnpackedFloat.mul Format.binary32 x.toModel.unpack y.toModel.unpack) := rfl

theorem unpack_div (x y : Float32) : (x / y).toModel.unpack =
    repack (UnpackedFloat.div Format.binary32 x.toModel.unpack y.toModel.unpack) := rfl

theorem nonneg_of_pos {x : Float32} (hx : 0 < x) : 0 ≤ x :=
  nonneg_iff.mpr (nonNeg_iff.mpr (.inr (zero_lt_iff.mp hx)))

theorem repack_unpack (x : Float32) : repack x.toModel.unpack = x.toModel.unpack :=
  congrArg (UnpackedFloat.unpack Format.binary32) (pack_unpack_of_valid x.toModel.valid)

theorem add_finite (s s' : Sign) (m m' : Nat) (e e' : Int) (h : 0 < m) (h' : 0 < m') :
    UnpackedFloat.add Format.binary32 (.finite s m e h) (.finite s' m' e' h') =
      UnpackedFloat.normalize Format.binary32 (s.apply (m <<< (e - min e e').toNat : Nat) +
        s'.apply (m' <<< (e' - min e e').toNat : Nat)) (min e e') .positive := rfl

theorem add_comm (x y : Float32) : x + y = y + x := by
  have hadd : UnpackedFloat.add Format.binary32 x.toModel.unpack y.toModel.unpack =
      UnpackedFloat.add Format.binary32 y.toModel.unpack x.toModel.unpack := by
    rcases x.toModel.unpack with (_ | _) | _ | (_ | _) | ⟨_, m, e, h⟩ <;>
    rcases y.toModel.unpack with (_ | _) | _ | (_ | _) | ⟨_, m', e', h'⟩ <;>
      first | rfl | rw [add_finite, add_finite, min_comm, Int.add_comm]
  exact congrArg (fun u => Float32.ofModel (Float32.Model.pack u)) hadd

theorem pos_repack_add {u v : UnpackedFloat} (hu : Pos u) (hv : Pos v)
    (hrange : ∀ m e h, u = .finite .positive m e h → -149 ≤ e)
    (hrange' : ∀ m e h, v = .finite .positive m e h → -149 ≤ e) :
    Pos (repack (UnpackedFloat.add Format.binary32 u v)) := by
  rcases pos_iff.mp hu with rfl | ⟨m, e, h, rfl⟩ <;> rcases pos_iff.mp hv with rfl | ⟨m', e', h', rfl⟩
  · exact pos_repack_infinity
  · exact pos_repack_infinity
  · exact pos_repack_infinity
  · have he := hrange m e h rfl
    have he' := hrange' m' e' h' rfl
    have hm : 0 < m <<< (e - min e e').toNat := by
      rw [Nat.shiftLeft_eq]
      exact Nat.mul_pos h (Nat.two_pow_pos _)
    rw [add_finite, Sign.apply, Sign.apply]
    generalize m <<< (e - min e e').toNat = a at *
    generalize m' <<< (e' - min e e').toNat = b at *
    rw [← Int.natCast_add]
    have hgt : compare ((a + b : Nat) : Int) 0 = .gt := Int.compare_eq_gt.mpr (by omega)
    obtain ⟨r, q, hr, hround, hlt, hle⟩ :=
      round_finite (m := a + b) (e := min e e') (by omega) (by omega) .positive
    rw [UnpackedFloat.normalize, hgt]
    simp only [Int.toNat_natCast, hround]
    exact pos_repack_finite hlt hle

theorem add_pos {x y : Float32} (hx : 0 < x) (hy : 0 ≤ y) : 0 < x + y := by
  rw [zero_lt_iff] at hx ⊢
  rw [nonneg_iff] at hy
  rw [unpack_add]
  rcases nonNeg_iff.mp hy with ⟨s, hzero⟩ | hpos
  · have hadd : UnpackedFloat.add Format.binary32 x.toModel.unpack (.zero s) = x.toModel.unpack := by
      rcases pos_iff.mp hx with hu | ⟨m, e, h, hu⟩ <;> rw [hu] <;> rfl
    rw [hzero, hadd, repack_unpack]
    exact hx
  · exact pos_repack_add hx hpos (fun m e h hu => (range_of_unpack hu).2) fun m e h hv => (range_of_unpack hv).2

theorem add_nonneg {x y : Float32} (hx : 0 ≤ x) (hy : 0 ≤ y) : 0 ≤ x + y := by
  rcases nonNeg_iff.mp (nonneg_iff.mp hx) with ⟨s, hu⟩ | hpos
  · rcases nonNeg_iff.mp (nonneg_iff.mp hy) with ⟨t, hv⟩ | hpos
    · have hadd : NonNeg (UnpackedFloat.add Format.binary32 (.zero s) (.zero t)) := by
        cases s <;> cases t <;> rfl
      rw [nonneg_iff, unpack_add, hu, hv]
      exact hadd.repack
    · rw [add_comm]
      exact nonneg_of_pos (add_pos (zero_lt_iff.mpr hpos) hx)
  · exact nonneg_of_pos (add_pos (zero_lt_iff.mpr hpos) hy)

/-- The sum of numbers that are not negative is positive if one of them is. -/
theorem foldl_add_pos {α : Type} (f : α → Float32) (xs : List α) (hxs : ∀ x ∈ xs, 0 ≤ f x) (start : Float32)
    (hstart : 0 ≤ start) (hpos : 0 < start ∨ ∃ x ∈ xs, 0 < f x) :
    0 < xs.foldl (fun sum x => sum + f x) start := by
  induction xs generalizing start with
  | nil => simpa using hpos
  | cons x rest ih =>
    obtain ⟨hx, hrest⟩ := List.forall_mem_cons.mp hxs
    refine ih hrest _ (add_nonneg hstart hx) ?_
    rcases hpos with hs | ⟨y, hy, hlt⟩
    · exact .inl (add_pos hs hx)
    rcases List.mem_cons.mp hy with rfl | hy
    · have hsum := add_pos hlt hstart
      rw [add_comm] at hsum
      exact .inl hsum
    · exact .inr ⟨y, hy, hlt⟩

end sums

section counts

theorem pos_repack_ofNat {n : Nat} (hn : 0 < n) : Pos (repack (UnpackedFloat.ofNat Format.binary32 n)) := by
  obtain ⟨m, e, h, hround, hlt, hle⟩ := round_finite (e := 0) hn (by decide) .positive
  have hgt : compare (n : Int) 0 = .gt := Int.compare_eq_gt.mpr (by omega)
  rw [UnpackedFloat.ofNat, UnpackedFloat.ofInt, UnpackedFloat.normalize, hgt]
  simp only [Int.toNat_natCast, hround]
  exact pos_repack_finite hlt hle

theorem mul_one_pos {x : Float32} (hx : 0 < x) : 0 < x * Float32.ofBits 0x3F800000 := by
  have hone : (Float32.ofBits 0x3F800000).toModel.unpack = .finite .positive (2 ^ 23) (-23) (by decide) := rfl
  rw [zero_lt_iff] at hx ⊢
  rw [unpack_mul, hone]
  rcases pos_iff.mp hx with hu | ⟨m, e, h, hu⟩
  · rw [hu]
    exact pos_repack_infinity
  · have he := (range_of_unpack hu).2
    rw [hu]
    refine pos_repack_roundWithAccuracy (Nat.mul_pos h (by decide)) ?_ .exact
    have hlog : 23 ≤ (m * 2 ^ 23).log2 := (Nat.le_log2 (by omega)).mpr (by omega)
    unfold totalExponent
    omega

theorem ofNat_pos {n : Nat} (hn : 0 < n) : 0 < n.toFloat32 := by
  change 0 < Float32.ofScientific n false 0
  unfold Float32.ofScientific
  split
  case isTrue h =>
    refine mul_one_pos (zero_lt_iff.mpr ?_)
    have hcast : n.toUInt64.toNat = n := by simp; omega
    have hpos := pos_repack_ofNat hn
    rw [← hcast] at hpos
    exact hpos
  case isFalse =>
    have hshift : 0 < n <<< Format.binary32.mantissaBits := by
      rw [Nat.shiftLeft_eq]
      exact Nat.mul_pos hn (Nat.two_pow_pos _)
    have hmul : UnpackedFloat.ofScientific Format.binary32 n 0 = roundWithAccuracy Format.binary32 .positive
        (n <<< Format.binary32.mantissaBits * 10 ^ 0) (-24 + 0) .exact := by
      rw [UnpackedFloat.ofScientific, dif_neg (Nat.ne_of_gt hn), if_neg (by decide), if_neg ?_, if_pos (by decide)]
      · rfl
      · have hbits : Format.binary32.exponentBits = 8 := rfl
        rw [hbits]
        omega
    refine zero_lt_iff.mpr ?_
    change Pos (repack (UnpackedFloat.ofScientific Format.binary32 n 0))
    rw [hmul]
    refine pos_repack_roundWithAccuracy (by omega) ?_ .exact
    unfold totalExponent
    omega

theorem ofNat_nonneg (n : Nat) : 0 ≤ n.toFloat32 := by
  cases n with
  | zero => decide
  | succ n => exact nonneg_of_pos (ofNat_pos n.succ_pos)

theorem looseFrequency_nonneg (distance : Nat) : 0 ≤ looseFrequency distance := by
  have hone : (0 : Float32) < 1 := by decide
  have hpos : 0 < distance.toFloat32 + 1 := by
    rw [add_comm]
    exact add_pos hone (ofNat_nonneg distance)
  rw [looseFrequency, nonneg_iff, unpack_div, unpack_one]
  refine NonNeg.repack ?_
  rcases pos_iff.mp (zero_lt_iff.mp hpos) with hu | ⟨m, e, h, hu⟩
  · rw [hu]
    exact Eq.refl true
  · rw [hu, nonNeg_iff, pos_iff]
    rcases roundWithAccuracy_cases _ _ (.positive / .positive) _ with hr | hr
    · exact .inl ⟨_, hr⟩
    · exact .inr (.inr hr)

theorem looseFrequency_zero_pos : 0 < looseFrequency 0 := by decide

end counts
end TextSearch.Scoring
