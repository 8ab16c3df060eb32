import Mathlib
import ScriptFold.Number.Word

/-!
Facts about doubles: what negation and the bits of a double do, and that there is one NaN. A double
is taken apart into sign, exponent field and fraction field; packing puts the same fields back.
-/

namespace ScriptFold

namespace Double

open Float.Model (Format UnpackedFloat)
open Float.Model.UnpackedFloat (Sign packComponents unpackSign unpackExponent unpackMantissa)

abbrev Exponent := BitVec 11

abbrev Fraction := BitVec 52

theorem toNat_implicit (m : Fraction) : (1#1 ++ m).toNat = 2 ^ 52 + m.toNat := by
  rw [BitVec.toNat_append, ← Nat.shiftLeft_add_eq_or_of_lt m.isLt]
  rfl

/-- What a double with given fields stands for. -/
def parts (s : Sign) (e : Exponent) (m : Fraction) : UnpackedFloat :=
  let exponent : Int := (e.toNat : Int) - 1075
  if e = -1#11 then if m = 0#52 then .infinity s else .notANumber
  else if e = 0#11 then
    if h : m = 0#52 then .zero s
    else .finite s m.toNat (exponent + 1) (by simpa [BitVec.toNat_pos, BitVec.pos_iff_ne_zero])
  else .finite s (1#1 ++ m).toNat exponent (by rw [toNat_implicit]; omega)

abbrev bits (s : Sign) (e : Exponent) (m : Fraction) : BitVec 64 :=
  packComponents Format.binary64 s e m

theorem neg_parts (s : Sign) (e : Exponent) (m : Fraction) : (parts s e m).neg = parts (-s) e m := by
  unfold parts
  split_ifs <;> rfl

theorem neg_neg_sign (s : Sign) : - -s = s := by
  cases s <;> rfl

theorem unpack_eq (b : BitVec 64) :
    UnpackedFloat.unpack Format.binary64 b =
      parts (Sign.ofBitVec (@unpackSign Format.binary64 b))
        (@unpackExponent Format.binary64 b)
        (@unpackMantissa Format.binary64 b) := by
  have bias : ((Format.binary64.exponentBias : Int) + ((52 : Nat) : Int)) = 1075 := by decide
  unfold UnpackedFloat.unpack parts
  simp only [bias]

theorem unpackSign_bits (s : Sign) (e : Exponent) (m : Fraction) :
    Sign.ofBitVec (@unpackSign Format.binary64 (bits s e m)) = s := by
  have h : (s.toBitVec ++ e ++ m).extractLsb' 63 1 = s.toBitVec := by
    rw [BitVec.extractLsb'_append_eq_of_le (by decide), BitVec.extractLsb'_append_eq_of_le (by decide)]
    cases s <;> rfl
  change Sign.ofBitVec ((s.toBitVec ++ e ++ m).extractLsb' 63 1) = s
  rw [h]
  cases s <;> rfl

theorem unpack_bits (s : Sign) (e : Exponent) (m : Fraction) :
    UnpackedFloat.unpack Format.binary64 (bits s e m) = parts s e m := by
  rw [unpack_eq, unpackSign_bits, UnpackedFloat.unpackExponent_packComponents,
    UnpackedFloat.unpackMantissa_packComponents]

theorem bits_unpack (b : BitVec 64) :
    bits (Sign.ofBitVec (@unpackSign Format.binary64 b))
      (@unpackExponent Format.binary64 b)
      (@unpackMantissa Format.binary64 b) = b := by
  have sign : ∀ v : BitVec 1, (Sign.ofBitVec v).toBitVec = v := by decide
  unfold bits packComponents
  rw [sign]
  unfold unpackSign unpackExponent unpackMantissa BitVec.extractLsb
  ext i hi
  grind

theorem log2_fraction (m : Fraction) : m.toNat.log2 < 52 := by
  by_cases h : m.toNat = 0
  · rw [h]
    decide
  · exact (Nat.log2_lt h).mpr m.isLt

theorem log2_implicit (m : Fraction) : (1#1 ++ m).toNat.log2 = 52 := by
  have := m.isLt
  rw [toNat_implicit]
  refine Nat.le_antisymm (Nat.le_of_lt_succ ((Nat.log2_lt (by omega)).mpr (by omega))) ?_
  exact (Nat.le_log2 (by omega)).mpr (by omega)

theorem pack_finite {s : Sign} {m : Nat} {e : Int} (hm : 0 < m) (he : (e + 1075).toNat < 2047) :
    UnpackedFloat.pack Format.binary64 (.finite s m e hm) =
      if m.log2 = 52 then bits s (.ofNat 11 (e + 1075).toNat) (.ofNat 52 m)
      else bits s 0#11 (.ofNat 52 m) := by
  have bias : e + (Format.binary64.exponentBias : Int) + ((52 : Nat) : Int) = e + 1075 := by
    have : (Format.binary64.exponentBias : Int) = 1023 := by decide
    omega
  have width : m.log2 + 1 = Format.binary64.mantissaBits ↔ m.log2 = 52 := by
    have : Format.binary64.mantissaBits = 53 := by decide
    omega
  unfold UnpackedFloat.pack
  simp only [bias, width]
  rw [if_neg (by omega)]

/-- Packing puts the fields back, except those of a NaN other than the canonical one. -/
theorem pack_parts (s : Sign) (e : Exponent) (m : Fraction) :
    UnpackedFloat.pack Format.binary64 (parts s e m) =
      if e = -1#11 ∧ m ≠ 0#52 then UnpackedFloat.packedNaN Format.binary64 else bits s e m := by
  unfold parts
  by_cases top : e = -1#11
  · by_cases hm : m = 0#52
    · rw [if_pos top, if_pos hm, if_neg (fun h => h.2 hm), top, hm]
      rfl
    · rw [if_pos top, if_neg hm, if_pos ⟨top, hm⟩]
      rfl
  · rw [if_neg top, if_neg (show ¬(e = -1#11 ∧ m ≠ 0#52) from fun h => top h.1)]
    by_cases zero : e = 0#11
    · by_cases hm : m = 0#52
      · rw [if_pos zero, dif_pos hm, zero, hm]
        rfl
      · -- a subnormal: its biased exponent is one, and it has no implicit bit
        have hlog := log2_fraction m
        rw [if_pos zero, dif_neg hm, pack_finite _ (by rw [zero]; decide), if_neg (by omega), zero,
          BitVec.ofNat_toNat]
        simp
    · have he := e.isLt
      have hne : e.toNat ≠ 2047 := fun h => top (BitVec.eq_of_toNat_eq h)
      have hexp : ((e.toNat : Int) - 1075 + 1075).toNat = e.toNat := by omega
      have hm : BitVec.ofNat 52 (1#1 ++ m).toNat = m := by
        refine BitVec.eq_of_toNat_eq ?_
        rw [toNat_implicit, BitVec.toNat_ofNat]
        omega
      rw [if_neg zero, pack_finite _ (by omega), if_pos (log2_implicit m), hexp, hm,
        BitVec.ofNat_toNat, BitVec.setWidth_eq]

/-- Every double has fields, and a NaN has those of the canonical one. -/
theorem exists_parts (x : Float) : ∃ s e m, x.toModel.toBits.toBitVec = bits s e m ∧
    (e = -1#11 → m ≠ 0#52 → bits s e m = UnpackedFloat.packedNaN Format.binary64) := by
  have h := bits_unpack x.toModel.toBits.toBitVec
  refine ⟨_, _, _, h.symm, fun he hm => ?_⟩
  rw [h]
  exact x.toModel.valid.eq_packedNaN he hm

theorem ext {x y : Float} (h : x.toModel.toBits.toBitVec = y.toModel.toBits.toBitVec) : x = y := by
  obtain ⟨⟨⟨b⟩, _⟩⟩ := x
  obtain ⟨⟨⟨c⟩, _⟩⟩ := y
  obtain rfl : b = c := h
  rfl

theorem unpack_toModel {x : Float} {s : Sign} {e : Exponent} {m : Fraction}
    (h : x.toModel.toBits.toBitVec = bits s e m) : x.toModel.unpack = parts s e m := by
  rw [← unpack_bits, ← h]
  rfl

theorem shiftRight_mantissa_le (em : UnpackedFloat.ExtendedMantissa) (k : Nat) :
    (em >>> k).mantissa ≤ em.mantissa := by
  induction k with
  | zero => exact Nat.le_refl _
  | succ k ih => exact (Nat.div_le_self _ 2).trans ih

theorem roundedMantissa_le (em : UnpackedFloat.ExtendedMantissa) :
    em.roundedMantissa ≤ em.mantissa + 1 := by
  unfold UnpackedFloat.ExtendedMantissa.roundedMantissa
  unfold UnpackedFloat.Accuracy.roundToNearestEven
  split <;> omega

theorem ofMantissaAndAccuracy_mantissa (m : Nat) (a : UnpackedFloat.Accuracy) :
    (UnpackedFloat.ExtendedMantissa.ofMantissaAndAccuracy m a).mantissa = m := by
  unfold UnpackedFloat.ExtendedMantissa.ofMantissaAndAccuracy
  split <;> rfl

theorem log2_lt {m k : Nat} (hm : m < 2 ^ k) (hk : 0 < k) : m.log2 < k := by
  by_cases h : m = 0
  · rw [h]
    exact hk
  · exact (Nat.log2_lt h).mpr hm

theorem targetExponent_le {m k : Nat} {e : Int} (hm : m < 2 ^ k) (hk : 0 < k) :
    Format.binary64.targetExponent (Float.Model.totalExponent m e) ≤ max (k + e) 0 := by
  have hlog := log2_lt hm hk
  have width : (Format.binary64.mantissaBits : Int) = 53 := by decide
  have least : Format.binary64.minExponent = -1074 := by decide
  unfold Float.Model.Format.targetExponent Float.Model.totalExponent
  omega

/-- A mantissa of at most `k` bits only loses bits, and its exponent stays below a bound. -/
theorem shiftToTargetExponent_le {m k : Nat} {e : Int} (a : UnpackedFloat.Accuracy)
    (hm : m < 2 ^ k) (hk : 0 < k) :
    (UnpackedFloat.shiftToTargetExponent Format.binary64 m e a).1.mantissa ≤ m ∧
      (UnpackedFloat.shiftToTargetExponent Format.binary64 m e a).2 ≤ max (k + e) 0 := by
  have htarget := targetExponent_le (e := e) hm hk
  unfold UnpackedFloat.shiftToTargetExponent UnpackedFloat.shiftToExponent
  refine ⟨?_, ?_⟩
  · exact (shiftRight_mantissa_le _ _).trans (ofMantissaAndAccuracy_mantissa m a).le
  · dsimp only
    omega

/-- What stands for a number: zero, or a mantissa with an exponent in range. -/
def InRange : UnpackedFloat → Prop
  | .zero _ => True
  | .finite _ _ e _ => e ≤ 900
  | _ => False

theorem inRange_roundWithAccuracy {m : Nat} {e : Int} (s : Sign) (a : UnpackedFloat.Accuracy)
    (hm : m < 2 ^ 128) (he : e ≤ 0) :
    InRange (UnpackedFloat.roundWithAccuracy Format.binary64 s m e a) := by
  have first := shiftToTargetExponent_le (e := e) a hm (by decide)
  unfold UnpackedFloat.roundWithAccuracy
  set em := (UnpackedFloat.shiftToTargetExponent Format.binary64 m e a).1
  set e₁ := (UnpackedFloat.shiftToTargetExponent Format.binary64 m e a).2
  have rounded := roundedMantissa_le em
  have second := shiftToTargetExponent_le (m := em.roundedMantissa) (k := 129) (e := e₁) .exact
    (by omega) (by decide)
  dsimp only
  split
  · trivial
  · exact second.2.trans (by omega)

theorem inRange_round {n : Nat} (s : Sign) (hn : n < 2 ^ 64) :
    InRange (UnpackedFloat.round Format.binary64 s n 0) := by
  have lower : -52 ≤ Format.binary64.targetExponent (Float.Model.totalExponent n 0) := by
    have width : (Format.binary64.mantissaBits : Int) = 53 := by decide
    unfold Float.Model.Format.targetExponent Float.Model.totalExponent
    omega
  unfold UnpackedFloat.round UnpackedFloat.decreaseExponent
  dsimp only
  set t := Format.binary64.targetExponent (Float.Model.totalExponent n 0)
  refine inRange_roundWithAccuracy s .exact ?_ (by omega)
  rw [Nat.shiftLeft_eq]
  calc n * 2 ^ (0 - t).toNat
      ≤ n * 2 ^ 52 := Nat.mul_le_mul_left n (Nat.pow_le_pow_right (by decide) (by omega))
    _ < 2 ^ 128 := by omega

theorem inRange_ofNat {n : Nat} (hn : n < 2 ^ 64) :
    InRange (UnpackedFloat.ofNat Format.binary64 n) := by
  unfold UnpackedFloat.ofNat UnpackedFloat.ofInt UnpackedFloat.normalize
  split
  · exact inRange_round _ (by omega)
  · trivial
  · exact inRange_round _ (by omega)

theorem isFinite_pack {u : UnpackedFloat} (h : InRange u) :
    (Float.ofModel (Float.Model.pack u)).isFinite := by
  change (UnpackedFloat.unpack Format.binary64 (UnpackedFloat.pack Format.binary64 u)).isFinite
  cases u with
  | infinity s => cases h
  | notANumber => cases h
  | zero s => cases s <;> decide
  | finite s m e hm =>
    have he : e ≤ 900 := h
    have isFinite_bits : ∀ e m, e ≠ -1#11 →
        (UnpackedFloat.unpack Format.binary64 (bits s e m)).isFinite := by
      intro e m he
      rw [unpack_bits]
      unfold parts
      rw [if_neg he]
      split_ifs <;> rfl
    rw [pack_finite hm (by omega)]
    split
    · refine isFinite_bits _ _ fun htop => ?_
      have htop := congrArg BitVec.toNat htop
      rw [BitVec.toNat_ofNat, show (-1#11).toNat = 2047 by decide] at htop
      omega
    · exact isFinite_bits _ _ (by decide)

end Double

open Double
open Float.Model (Format UnpackedFloat)
open Float.Model.UnpackedFloat (Sign)

theorem ofBits_toBits (x : Float) : Float.ofBits x.toBits = x := by
  obtain ⟨s, e, m, h, canonical⟩ := exists_parts x
  refine Double.ext ?_
  change UnpackedFloat.pack Format.binary64
    (UnpackedFloat.unpack Format.binary64 x.toModel.toBits.toBitVec) = _
  rw [h, unpack_bits, pack_parts]
  split
  · exact (canonical ‹_ ∧ _›.1 ‹_ ∧ _›.2).symm
  · rfl

theorem neg_cases {x : Float} {s : Sign} {e : Exponent} {m : Fraction}
    (h : x.toModel.toBits.toBitVec = bits s e m)
    (canonical : e = -1#11 → m ≠ 0#52 → bits s e m = UnpackedFloat.packedNaN Format.binary64) :
    -x = x ∨ (-x).toModel.toBits.toBitVec = bits (-s) e m := by
  have hneg : (-x).toModel.toBits.toBitVec =
      UnpackedFloat.pack Format.binary64 (parts (-s) e m) := by
    rw [← neg_parts, ← unpack_toModel h]
    rfl
  rw [pack_parts] at hneg
  split at hneg
  · left
    refine Double.ext ?_
    rw [hneg, h, canonical ‹_ ∧ _›.1 ‹_ ∧ _›.2]
  · exact .inr hneg

theorem neg_neg_float (x : Float) : - -x = x := by
  obtain ⟨s, e, m, h, canonical⟩ := exists_parts x
  rcases neg_cases h canonical with hx | hx
  · rw [hx, hx]
  · refine Double.ext ?_
    have hneg : (- -x).toModel.toBits.toBitVec =
        UnpackedFloat.pack Format.binary64 (parts (- -s) e m) := by
      rw [← neg_parts, ← unpack_toModel hx]
      rfl
    rw [hneg, neg_neg_sign, pack_parts, h]
    split
    · exact (canonical ‹_ ∧ _›.1 ‹_ ∧ _›.2).symm
    · rfl

theorem isFinite_neg (x : Float) : (-x).isFinite = x.isFinite := by
  obtain ⟨s, e, m, h, canonical⟩ := exists_parts x
  rcases neg_cases h canonical with hx | hx
  · rw [hx]
  · change (-x).toModel.unpack.isFinite = x.toModel.unpack.isFinite
    rw [unpack_toModel hx, unpack_toModel h, ← neg_parts]
    cases parts s e m <;> rfl

/-- There is one NaN. -/
theorem eq_nan {x : Float} (h : x.isNaN) : x = 0 / 0 := by
  obtain ⟨s, e, m, hx, canonical⟩ := exists_parts x
  change x.toModel.unpack.isNaN at h
  rw [unpack_toModel hx] at h
  refine Double.ext ?_
  unfold parts at h
  split_ifs at h with he hm hz hm
  · cases h
  · rw [hx, canonical he hm]
    decide
  · cases h
  · cases h
  · cases h

theorem isFinite_eq (x : Float) : x.isFinite = (!x.isNaN && !x.isInf) := by
  change x.toModel.unpack.isFinite = (!x.toModel.unpack.isNaN && !x.toModel.unpack.isInf)
  cases x.toModel.unpack <;> rfl

theorem isFinite_ofLength (length : Nat) : (ofLength length).isFinite :=
  Double.isFinite_pack (inRange_ofNat (UInt64.ofNat length).toNat_lt)

end ScriptFold
