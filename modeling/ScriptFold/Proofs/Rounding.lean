import ScriptFold.Proofs.Magnitude

/-!
Rounding of exact results. Arithmetic on doubles computes the first bits of the exact result and how
what is cut off compares with one half, and rounds from that. Main statement: what comes out is the
double nearest to the exact result, also where doubles lose bits near zero and where they end.
-/

namespace ScriptFold

namespace Double

open Float.Model (UnpackedFloat Format)
open Float.Model.UnpackedFloat (Sign Accuracy ExtendedMantissa)

/-- What is known of the part of a unit that was cut off. -/
def Cut : Accuracy → ℚ → Prop
  | .exact, θ => θ = 0
  | .inexact .lt, θ => 0 < θ ∧ 2 * θ < 1
  | .inexact .eq, θ => 2 * θ = 1
  | .inexact .gt, θ => 1 < 2 * θ ∧ θ < 1

section

variable {a : Accuracy} {θ : ℚ}

@[simp]
theorem cut_exact : Cut .exact θ ↔ θ = 0 :=
  Iff.rfl

@[simp]
theorem cut_lt : Cut (.inexact .lt) θ ↔ 0 < θ ∧ 2 * θ < 1 :=
  Iff.rfl

@[simp]
theorem cut_eq : Cut (.inexact .eq) θ ↔ 2 * θ = 1 :=
  Iff.rfl

@[simp]
theorem cut_gt : Cut (.inexact .gt) θ ↔ 1 < 2 * θ ∧ θ < 1 :=
  Iff.rfl

theorem Cut.bounds (h : Cut a θ) : 0 ≤ θ ∧ θ < 1 := by
  rcases a with _ | _ | _ | _ <;> simp only [cut_exact, cut_lt, cut_eq, cut_gt] at h <;>
    constructor <;> linarith

end

theorem accuracy_ofMantissaAndAccuracy (m : ℕ) (a : Accuracy) :
    (ExtendedMantissa.ofMantissaAndAccuracy m a).accuracy = a := by
  rcases a with _ | _ | _ | _ <;> rfl

theorem Cut.shiftRightOne {em : ExtendedMantissa} {θ : ℚ} (h : Cut em.accuracy θ) :
    Cut em.shiftRightOne.accuracy (((em.mantissa % 2 : ℕ) + θ) / 2) := by
  obtain ⟨m, round, sticky⟩ := em
  unfold ExtendedMantissa.shiftRightOne
  rcases Nat.mod_two_eq_zero_or_one m with hbit | hbit <;> cases round <;> cases sticky <;>
    simp [hbit, ExtendedMantissa.accuracy] at h ⊢ <;>
    first
      | linarith
      | constructor <;> linarith

theorem Cut.shiftRight {em : ExtendedMantissa} {θ : ℚ} (h : Cut em.accuracy θ) (k : ℕ) :
    ∃ φ, Cut (em >>> k).accuracy φ ∧ em.mantissa + θ = ((em >>> k).mantissa + φ) * 2 ^ k := by
  induction k with
  | zero => exact ⟨θ, h, by rw [pow_zero, mul_one]; rfl⟩
  | succ k ih =>
    obtain ⟨φ, hφ, hsum⟩ := ih
    refine ⟨_, hφ.shiftRightOne, ?_⟩
    change _ = (((em >>> k).mantissa / 2 : ℕ) +
      (((em >>> k).mantissa % 2 : ℕ) + φ) / 2) * 2 ^ (k + 1)
    have hsplit : ((em >>> k).mantissa : ℚ) =
        2 * ((em >>> k).mantissa / 2 : ℕ) + ((em >>> k).mantissa % 2 : ℕ) := by
      exact_mod_cast (Nat.div_add_mod _ 2).symm
    rw [hsum, pow_succ]
    linear_combination (2 : ℚ) ^ k * hsplit

theorem mantissa_shiftRight (em : ExtendedMantissa) (k : ℕ) :
    (em >>> k).mantissa = em.mantissa / 2 ^ k := by
  induction k with
  | zero => exact (Nat.div_one _).symm
  | succ k ih =>
    change (em >>> k).mantissa / 2 = _
    rw [ih, Nat.div_div_eq_div_mul, Nat.pow_succ]

/-- A number with a mantissa of at most `53` bits and a part cut off is rounded to the nearest
double. -/
theorem nearest_roundedMantissa {em : ExtendedMantissa} {q : ℕ} {θ : ℚ}
    (hm : em.mantissa < 2 ^ 53) (h : 2 ^ 52 ≤ em.mantissa ∨ q = 0) (hθ : Cut em.accuracy θ) :
    Nearest ((em.mantissa + θ) * 2 ^ ((q : ℤ) - 1074)) (q * 2 ^ 52 + em.roundedMantissa) := by
  have hunit : (0 : ℚ) < 2 ^ ((q : ℤ) - 1074) := by positivity
  have hvalue := value_add hm.le h
  have hnext := value_add (m := em.mantissa + 1) (q := q) hm (by omega)
  rw [← Nat.add_assoc, Nat.cast_add, Nat.cast_one] at hnext
  generalize (2 : ℚ) ^ ((q : ℤ) - 1074) = u at *
  obtain ⟨hzero, hone⟩ := hθ.bounds
  obtain ⟨hbelow, habove, hmiddle⟩ := Nearest.of_between
    (v := (em.mantissa + θ) * u) (n := q * 2 ^ 52 + em.mantissa)
    (by rw [hvalue]; nlinarith) (by rw [hnext]; nlinarith)
  rw [hvalue, hnext] at hbelow hmiddle
  rw [hvalue] at habove
  unfold ExtendedMantissa.roundedMantissa
  rcases hacc : em.accuracy with _ | _ | _ | _ <;>
    simp only [hacc, cut_exact, cut_lt, cut_eq, cut_gt] at hθ <;>
    simp only [Accuracy.roundToNearestEven]
  · exact hbelow (by rw [hθ]; nlinarith)
  · exact hbelow (by nlinarith)
  · have hparity : (q * 2 ^ 52 + em.mantissa) % 2 = em.mantissa % 2 := by omega
    rw [hparity, Nat.add_assoc] at hmiddle
    exact hmiddle (by linear_combination u * hθ)
  · rw [Nat.add_assoc] at habove
    exact habove (by rw [← Nat.add_assoc, hnext]; nlinarith)

theorem pack_eq_nth {m q : ℕ} (hm : m < 2 ^ 53) (h : 2 ^ 52 ≤ m ∨ q = 0) (hpos : 0 < m) :
    Float.ofModel (Float.Model.pack (.finite .positive m ((q : ℤ) - 1074) hpos)) =
      nth (q * 2 ^ 52 + m) := by
  apply eq_nth
  change (UnpackedFloat.pack Format.binary64 _).toNat = _
  have hsign : Sign.positive.toBitVec.toNat = 0 := rfl
  have hexponent : ((q : ℤ) - 1074 + 1075).toNat = q + 1 := by omega
  by_cases hfinite : q + 1 < 2047
  · have hmin : min (q * 2 ^ 52 + m) infinity = q * 2 ^ 52 + m := by
      unfold infinity
      omega
    rw [pack_finite hpos (by omega), hmin, hexponent]
    rcases Nat.lt_or_ge m (2 ^ 52) with hsmall | hlarge
    · obtain rfl : q = 0 := by omega
      have hlog : m.log2 ≠ 52 := (log2_lt hsmall (by norm_num)).ne
      rw [if_neg hlog, toNat_bits, hsign, BitVec.toNat_ofNat, BitVec.toNat_ofNat]
      omega
    · have hlog : m.log2 = 52 := (Nat.log2_eq_iff hpos.ne').mpr ⟨hlarge, hm⟩
      rw [if_pos hlog, toNat_bits, hsign, BitVec.toNat_ofNat, BitVec.toNat_ofNat]
      omega
  · have hmin : min (q * 2 ^ 52 + m) infinity = infinity := by
      unfold infinity
      omega
    have bias : (q : ℤ) - 1074 + (Format.binary64.exponentBias : ℤ) + ((52 : ℕ) : ℤ) = q + 1 := by
      have : (Format.binary64.exponentBias : ℤ) = 1023 := by decide
      omega
    have htop : (-1#11).toNat = 2047 := by decide
    unfold UnpackedFloat.pack
    simp only [bias]
    rw [if_pos (by omega), hmin]
    change (bits .positive (-1#11) 0#52).toNat = _
    rw [toNat_bits, hsign, htop]
    rfl

theorem targetExponent_eq (m : ℕ) (e : ℤ) :
    Format.binary64.targetExponent (Float.Model.totalExponent m e) =
      max ((m.log2 : ℤ) + e - 52) (-1074) := by
  have width : (Format.binary64.mantissaBits : ℤ) = 53 := by decide
  have least : Format.binary64.minExponent = -1074 := by decide
  unfold Float.Model.Format.targetExponent Float.Model.totalExponent
  omega

theorem le_roundedMantissa (em : ExtendedMantissa) : em.mantissa ≤ em.roundedMantissa := by
  unfold ExtendedMantissa.roundedMantissa UnpackedFloat.Accuracy.roundToNearestEven
  split <;> omega

/-- Rounding may fill a mantissa up to the next power of two, which has a shorter one. -/
theorem shiftToTargetExponent_rounded {m : ℕ} {e : ℤ} (hm : m ≤ 2 ^ 53) (he : -1074 ≤ e) :
    UnpackedFloat.shiftToTargetExponent Format.binary64 m e .exact =
      if m < 2 ^ 53 then (⟨m, false, false⟩, e) else (⟨2 ^ 52, false, false⟩, e + 1) := by
  split
  · have hlog := log2_lt (m := m) (k := 53) (by assumption) (by norm_num)
    have hshift : (max ((m.log2 : ℤ) + e - 52) (-1074) - e).toNat = 0 := by omega
    unfold UnpackedFloat.shiftToTargetExponent UnpackedFloat.shiftToExponent
    rw [targetExponent_eq]
    dsimp only
    rw [hshift, Nat.cast_zero, add_zero]
    rfl
  · have hlog : (2 ^ 52 : ℕ).log2 = 52 := Nat.log2_two_pow
    have again := shiftToTargetExponent_two_pow (e := e + 1) hlog (by omega) 1
    rwa [Nat.cast_one, add_sub_cancel_right, show 2 ^ 52 * 2 ^ 1 = m by omega] at again

/-- The bits of an exact result are cut off where the mantissa of a double ends. -/
theorem exists_shifted {m : ℕ} {e : ℤ} {a : Accuracy} {θ : ℚ} (hθ : Cut a θ)
    (h : 52 ≤ m.log2 ∨ e ≤ -1074) : ∃ (em : ExtendedMantissa) (q : ℕ) (φ : ℚ),
      UnpackedFloat.shiftToTargetExponent Format.binary64 m e a = (em, (q : ℤ) - 1074) ∧
        em.mantissa < 2 ^ 53 ∧ (2 ^ 52 ≤ em.mantissa ∨ q = 0) ∧ Cut em.accuracy φ ∧
          (m + θ) * 2 ^ e = (em.mantissa + φ) * 2 ^ ((q : ℤ) - 1074) := by
  obtain ⟨k, hk⟩ : ∃ k : ℕ, k = (max ((m.log2 : ℤ) + e - 52) (-1074) - e).toNat := ⟨_, rfl⟩
  obtain ⟨q, hq⟩ : ∃ q : ℕ, e + k = (q : ℤ) - 1074 := ⟨(e + k + 1074).toNat, by omega⟩
  have hcut : Cut (ExtendedMantissa.ofMantissaAndAccuracy m a).accuracy θ := by
    rwa [accuracy_ofMantissaAndAccuracy]
  obtain ⟨φ, hφ, hsum⟩ := hcut.shiftRight k
  rw [ofMantissaAndAccuracy_mantissa] at hsum
  refine ⟨_, q, φ, ?_, ?_, ?_, hφ, ?_⟩
  · unfold UnpackedFloat.shiftToTargetExponent UnpackedFloat.shiftToExponent
    rw [targetExponent_eq]
    dsimp only
    rw [← hk, hq]
  · rw [mantissa_shiftRight, ofMantissaAndAccuracy_mantissa,
      Nat.div_lt_iff_lt_mul (by positivity), ← Nat.pow_add]
    exact Nat.lt_log2_self.trans_le (Nat.pow_le_pow_right (by norm_num) (by omega))
  · by_cases hzero : q = 0
    · exact .inr hzero
    · left
      have hpos : m ≠ 0 := by
        rintro rfl
        simp only [Nat.log2_zero] at h hk
        omega
      rw [mantissa_shiftRight, ofMantissaAndAccuracy_mantissa,
        Nat.le_div_iff_mul_le (by positivity), ← Nat.pow_add]
      exact (Nat.pow_le_pow_right (by norm_num) (by omega)).trans (Nat.log2_self_le hpos)
  · rw [hsum, ← hq, zpow_add₀ (by norm_num), zpow_natCast]
    ring

/-- Rounding the bits that are left may carry over into the exponent. -/
theorem pack_roundWithAccuracy {m q : ℕ} {e : ℤ} {a : Accuracy} {em : ExtendedMantissa}
    (hshift : UnpackedFloat.shiftToTargetExponent Format.binary64 m e a = (em, (q : ℤ) - 1074))
    (hlt : em.mantissa < 2 ^ 53) (hfull : 2 ^ 52 ≤ em.mantissa ∨ q = 0) :
    Float.ofModel (Float.Model.pack
      (UnpackedFloat.roundWithAccuracy Format.binary64 .positive m e a)) =
        nth (q * 2 ^ 52 + em.roundedMantissa) := by
  have hlow := le_roundedMantissa em
  have hhigh := roundedMantissa_le em
  unfold UnpackedFloat.roundWithAccuracy
  rw [hshift]
  dsimp only
  rw [shiftToTargetExponent_rounded (by omega) (by omega)]
  generalize em.roundedMantissa = r at *
  by_cases hr : r < 2 ^ 53
  · simp only [if_pos hr]
    by_cases hzero : r = 0
    · obtain rfl : q = 0 := by omega
      rw [dif_pos hzero, hzero]
      exact eq_nth rfl
    · rw [dif_neg hzero]
      exact pack_eq_nth hr (by omega) _
  · have hcarry : q * 2 ^ 52 + r = (q + 1) * 2 ^ 52 + 2 ^ 52 := by omega
    have hexponent : (q : ℤ) - 1074 + 1 = (q + 1 : ℕ) - 1074 := by
      push_cast
      ring
    simp only [if_neg hr, hcarry, hexponent]
    rw [dif_neg (by norm_num)]
    exact pack_eq_nth (by norm_num) (.inl le_rfl) _

/-- An exact result is rounded if enough of its bits are known. -/
theorem rounds_roundWithAccuracy {m : ℕ} {e : ℤ} {a : Accuracy} {θ : ℚ} (hθ : Cut a θ)
    (h : 52 ≤ m.log2 ∨ e ≤ -1074) :
    Rounds ((m + θ) * 2 ^ e) (Float.ofModel (Float.Model.pack
      (UnpackedFloat.roundWithAccuracy Format.binary64 .positive m e a))) := by
  obtain ⟨em, q, φ, hshift, hlt, hfull, hφ, hexact⟩ := exists_shifted hθ h
  rw [hexact]
  exact ⟨_, nearest_roundedMantissa hlt hfull hφ, pack_roundWithAccuracy hshift hlt hfull⟩

end Double

end ScriptFold
