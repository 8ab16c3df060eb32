import ScriptFold.Proofs.Double

/-!
Integers as doubles. An integer below `2 ^ 53` in magnitude fills the mantissa of a double without
rounding, so a double that is such an integer is the one that the integer is read as. Zero below
zero is the exception: it is an integer, and read as zero above zero.
-/

namespace ScriptFold

namespace Double

open Float.Model (Format UnpackedFloat)
open Float.Model.UnpackedFloat (Sign ExtendedMantissa)

theorem log2_mul_two_pow {n : Nat} (hn : 0 < n) (k : Nat) : (n * 2 ^ k).log2 = n.log2 + k := by
  induction k with
  | zero => simp
  | succ k ih =>
    have hpos : n * 2 ^ k ≠ 0 := by positivity
    rw [Nat.pow_succ', Nat.mul_left_comm, Nat.log2_two_mul hpos, ih]
    rfl

theorem shiftRight_two_pow (m k : Nat) :
    ExtendedMantissa.ofMantissaAndAccuracy (m * 2 ^ k) .exact >>> k = ⟨m, false, false⟩ := by
  induction k generalizing m with
  | zero =>
    rw [Nat.pow_zero, Nat.mul_one]
    rfl
  | succ k ih =>
    have hshift : m * 2 ^ (k + 1) = 2 * m * 2 ^ k := by
      rw [Nat.pow_succ']
      ac_rfl
    change (ExtendedMantissa.ofMantissaAndAccuracy (m * 2 ^ (k + 1)) .exact >>> k).shiftRightOne = _
    rw [hshift, ih]
    unfold ExtendedMantissa.shiftRightOne
    simp

theorem shiftToTargetExponent_two_pow {m : Nat} {e : Int} (hm : m.log2 = 52) (he : -1074 ≤ e)
    (k : Nat) :
    UnpackedFloat.shiftToTargetExponent Format.binary64 (m * 2 ^ k) (e - k) .exact =
      (⟨m, false, false⟩, e) := by
  have hpos : 0 < m := Nat.pos_of_ne_zero fun h => by
    rw [h] at hm
    cases hm
  have target :
      Format.binary64.targetExponent (Float.Model.totalExponent (m * 2 ^ k) (e - k)) = e := by
    have width : (Format.binary64.mantissaBits : Int) = 53 := by decide
    have least : Format.binary64.minExponent = -1074 := by decide
    unfold Float.Model.Format.targetExponent Float.Model.totalExponent
    rw [log2_mul_two_pow hpos, hm]
    omega
  have shift : (e - (e - k)).toNat = k := by omega
  have back : e - k + (k : Int) = e := by omega
  unfold UnpackedFloat.shiftToTargetExponent UnpackedFloat.shiftToExponent
  dsimp only
  rw [target, shift, shiftRight_two_pow, back]

/-- A mantissa of full width is kept, whatever the number of zeros behind it. -/
theorem roundWithAccuracy_two_pow {m : Nat} {e : Int} (s : Sign) (hm : m.log2 = 52) (he : -1074 ≤ e)
    (k : Nat) (hpos : 0 < m) :
    UnpackedFloat.roundWithAccuracy Format.binary64 s (m * 2 ^ k) (e - k) .exact =
      .finite s m e hpos := by
  have again := shiftToTargetExponent_two_pow hm he 0
  rw [Nat.pow_zero, Nat.mul_one, Nat.cast_zero, sub_zero] at again
  have rounded : (⟨m, false, false⟩ : ExtendedMantissa).roundedMantissa = m := rfl
  unfold UnpackedFloat.roundWithAccuracy
  simp only [shiftToTargetExponent_two_pow hm he k, rounded, again]
  rw [dif_neg hpos.ne']

theorem ofNat_two_pow {n k : Nat} (h : (n * 2 ^ k).log2 = 52) (hk : k ≤ 52) (hpos : 0 < n * 2 ^ k) :
    UnpackedFloat.ofNat Format.binary64 n = .finite .positive (n * 2 ^ k) (-k) hpos := by
  have hn : 0 < n := Nat.pos_of_mul_pos_right hpos
  have target : Format.binary64.targetExponent (Float.Model.totalExponent n 0) = -k := by
    have width : (Format.binary64.mantissaBits : Int) = 53 := by decide
    have least : Format.binary64.minExponent = -1074 := by decide
    rw [log2_mul_two_pow hn] at h
    unfold Float.Model.Format.targetExponent Float.Model.totalExponent
    omega
  have positive : compare (n : Int) 0 = .gt := Int.compare_eq_gt.mpr (by omega)
  have round := roundWithAccuracy_two_pow (e := -k) .positive h (by omega) 0 hpos
  rw [Nat.pow_zero, Nat.mul_one, Nat.cast_zero, sub_zero] at round
  unfold UnpackedFloat.ofNat UnpackedFloat.ofInt UnpackedFloat.normalize
  rw [positive]
  change UnpackedFloat.round Format.binary64 .positive n 0 = _
  unfold UnpackedFloat.round UnpackedFloat.decreaseExponent
  simp only [target, Nat.shiftLeft_eq, zero_sub, neg_neg, Int.toNat_natCast]
  exact round

variable {s : Sign} {e : Exponent} {m : Fraction}

theorem parts_normal (hzero : e ≠ 0#11) (htop : e ≠ -1#11) (hpos : 0 < (1#1 ++ m).toNat) :
    parts s e m = .finite s (1#1 ++ m).toNat ((e.toNat : Int) - 1075) hpos := by
  unfold parts
  rw [if_neg htop, if_neg hzero]

theorem pack_normal (htop : e ≠ -1#11) :
    UnpackedFloat.pack Format.binary64 (parts s e m) = bits s e m := by
  rw [pack_parts, if_neg fun h => htop h.1]

theorem ofNat_bits {n k : Nat} (hn : n < 2 ^ 53) (hzero : e ≠ 0#11) (htop : e ≠ -1#11)
    (hm : (1#1 ++ m).toNat = n * 2 ^ k) (he : e.toNat + k = 1075) (hk : k ≤ 52) :
    (Float.ofNat n).toModel.toBits.toBitVec = bits .positive e m := by
  have hlog := log2_implicit m
  have hpos : 0 < (1#1 ++ m).toNat := by
    rw [toNat_implicit]
    omega
  have parts_eq : UnpackedFloat.ofNat Format.binary64 n = parts .positive e m := by
    rw [parts_normal hzero htop hpos]
    rw [hm] at hlog
    rw [ofNat_two_pow hlog hk (hm ▸ hpos)]
    simp only [hm, UnpackedFloat.finite.injEq, true_and]
    omega
  -- reading multiplies by the double one, which shifts the mantissa there and back
  have word : n.toUInt64.toNat = n := Nat.mod_eq_of_lt (by omega)
  have times : Float.ofNat n = n.toUInt64.toFloat * 1.0 := by
    unfold Float.ofNat OfScientific.ofScientific instOfScientificFloat Float.ofScientific
    dsimp only
    rw [dif_pos ⟨hn, by decide⟩]
    rfl
  have unpacked : n.toUInt64.toFloat.toModel.unpack = parts .positive e m := by
    change UnpackedFloat.unpack Format.binary64 (UnpackedFloat.pack Format.binary64
      (UnpackedFloat.ofNat Format.binary64 n.toUInt64.toNat)) = _
    rw [word, parts_eq, pack_normal htop, unpack_bits]
  have one : (1.0 : Float).toModel.unpack = .finite .positive (2 ^ 52) (-52) (by decide) := by rfl
  rw [times]
  change UnpackedFloat.pack Format.binary64 (UnpackedFloat.mul Format.binary64
    n.toUInt64.toFloat.toModel.unpack (1.0 : Float).toModel.unpack) = _
  rw [unpacked, one, parts_normal hzero htop hpos]
  change UnpackedFloat.pack Format.binary64 (UnpackedFloat.roundWithAccuracy Format.binary64
    .positive ((1#1 ++ m).toNat * 2 ^ 52) ((e.toNat : Int) - 1075 - (52 : Nat)) .exact) = _
  rw [roundWithAccuracy_two_pow .positive hlog (by omega) 52 hpos, ← parts_normal hzero htop hpos,
    pack_normal htop]

theorem toNat_bits (s : Sign) (e : Exponent) (m : Fraction) :
    (bits s e m).toNat = s.toBitVec.toNat * 2 ^ 63 + e.toNat * 2 ^ 52 + m.toNat := by
  have he := e.isLt
  have hm := m.isLt
  change ((s.toBitVec ++ e) ++ m).toNat = _
  rw [BitVec.toNat_append, ← Nat.shiftLeft_add_eq_or_of_lt hm, BitVec.toNat_append,
    ← Nat.shiftLeft_add_eq_or_of_lt he, Nat.shiftLeft_eq, Nat.shiftLeft_eq]
  ring

end Double

open Double
open Float.Model (Format UnpackedFloat)
open Float.Model.UnpackedFloat (Sign)

theorem Binary.ofFloat_eq {x : Float} {s : Sign} {e : Exponent} {m : Fraction}
    (hx : x.toModel.toBits.toBitVec = bits s e m) :
    Binary.ofFloat x =
      { negative := s.toBitVec.toNat = 1
        mantissa := if e = 0#11 then m.toNat else (1#1 ++ m).toNat
        exponent := if e = 0#11 then -1074 else (e.toNat : Int) - 1075 } := by
  have word : x.toBits.toNat = s.toBitVec.toNat * 2 ^ 63 + e.toNat * 2 ^ 52 + m.toNat := by
    rw [← toNat_bits, ← hx]
    rfl
  have hs := s.toBitVec.isLt
  have he := e.isLt
  have hm := m.isLt
  have sign : x.toBits.toNat / Nat.pow 2 63 = s.toBitVec.toNat := by
    change _ / 2 ^ 63 = _
    omega
  have exponent : x.toBits.toNat / Nat.pow 2 52 % Nat.pow 2 11 = e.toNat := by
    change _ / 2 ^ 52 % 2 ^ 11 = _
    omega
  have fraction : x.toBits.toNat % Nat.pow 2 52 = m.toNat := by
    change _ % 2 ^ 52 = _
    omega
  have zero : e.toNat = 0 ↔ e = 0#11 := by
    rw [← BitVec.toNat_inj]
    rfl
  unfold ofFloat
  simp only [sign, exponent, fraction, zero, toNat_implicit]
  rfl

/-- The mantissa of a double that is an integer below `2 ^ 53` is the integer with zeros behind. -/
theorem exists_mantissa_eq {m : Fraction} {k N : Nat} {E : Int} (hE : E = (k : Int) - 1075)
    (hint : (1#1 ++ m).toNat % 2 ^ (-E).toNat = 0)
    (hN : (1#1 ++ m).toNat * 2 ^ E.toNat / 2 ^ (-E).toNat = N) (hlt : N < 2 ^ 53) :
    ∃ j, (1#1 ++ m).toNat = N * 2 ^ j ∧ k + j = 1075 ∧ j ≤ 52 := by
  have hM := toNat_implicit m
  have hm := m.isLt
  generalize (1#1 ++ m).toNat = M at *
  rcases Int.lt_or_le 0 E with hpos | hneg
  · -- it would be too large
    have hdouble : 2 ≤ 2 ^ E.toNat := Nat.le_self_pow (by omega) 2
    have hlarge := Nat.mul_le_mul (show 2 ^ 52 ≤ M by omega) hdouble
    rw [show (-E).toNat = 0 by omega, Nat.pow_zero, Nat.div_one] at hN
    omega
  · rw [show E.toNat = 0 by omega, Nat.pow_zero, Nat.mul_one] at hN
    obtain rfl : M = N * 2 ^ (-E).toNat := by
      rw [← hN]
      exact (Nat.div_mul_cancel (Nat.dvd_of_mod_eq_zero hint)).symm
    refine ⟨(-E).toNat, rfl, by omega, ?_⟩
    by_contra hj
    have hN : 0 < N := by
      refine Nat.pos_of_ne_zero fun h => ?_
      rw [h, Nat.zero_mul] at hM
      omega
    have hlarge : 2 ^ 53 ≤ 2 ^ (-E).toNat := Nat.pow_le_pow_right (by decide) (by omega)
    have := Nat.mul_le_mul hN hlarge
    omega

theorem ofInt_neg {n : Nat} (h : 0 < n) : Float.ofInt (-n) = -Float.ofNat n := by
  obtain ⟨n, rfl⟩ : ∃ k, n = k + 1 := ⟨n - 1, by omega⟩
  rfl

theorem bits_neg {x : Float} {s : Sign} {e : Exponent} {m : Fraction}
    (hx : x.toModel.toBits.toBitVec = bits s e m) (htop : e ≠ -1#11) :
    (-x).toModel.toBits.toBitVec = bits (-s) e m := by
  rw [← pack_normal htop, ← neg_parts, ← unpack_toModel hx]
  rfl

theorem exists_magnitude {x : Float} {n : Int} {b : Binary} (hb : Binary.ofFloat x = b)
    (h : integer? x = some n) : x.isFinite ∧ b.mantissa % 2 ^ (-b.exponent).toNat = 0 ∧
      ∃ N : Nat, b.mantissa * 2 ^ b.exponent.toNat / 2 ^ (-b.exponent).toNat = N ∧
        n = if b.negative then -(N : Int) else N := by
  unfold integer? at h
  rw [hb, Option.ite_none_right_eq_some, Bool.and_eq_true] at h
  obtain ⟨⟨hfinite, hint⟩, hn⟩ := h
  exact ⟨hfinite, of_decide_eq_true hint, _, rfl, (Option.some.inj hn).symm⟩

theorem exponent_ne_top {x : Float} {s : Sign} {e : Exponent} {m : Fraction}
    (hx : x.toModel.toBits.toBitVec = bits s e m) (h : x.isFinite) : e ≠ -1#11 := by
  rintro rfl
  change x.toModel.unpack.isFinite at h
  rw [unpack_toModel hx] at h
  unfold parts at h
  rw [if_pos rfl] at h
  split at h <;> cases h

theorem fraction_eq_zero {m : Fraction} {k : Nat} (hk : 52 ≤ k) (h : m.toNat % 2 ^ k = 0) :
    m = 0#52 := by
  apply BitVec.eq_of_toNat_eq
  rwa [Nat.mod_eq_of_lt] at h
  exact m.isLt.trans_le (Nat.pow_le_pow_right (by decide) hk)

theorem ofInt_bits {x : Float} {s : Sign} {e : Exponent} {m : Fraction} {n : Nat}
    (hx : x.toModel.toBits.toBitVec = bits s e m) (hpos : 0 < n) (htop : e ≠ -1#11)
    (h : (Float.ofNat n).toModel.toBits.toBitVec = bits .positive e m) :
    Float.ofInt (if s.toBitVec.toNat = 1 then -(n : Int) else n) = x := by
  apply Double.ext
  rw [hx]
  cases s with
  | positive =>
    rw [if_neg (by decide)]
    exact h
  | negative =>
    rw [if_pos (by decide), ofInt_neg hpos, bits_neg h htop]
    rfl

/-- The double that an integer below `2 ^ 53` is taken from is the one the integer is read as, but
for zero below zero. -/
theorem ofInt_of_integer? {x : Float} {n : Int} (h : integer? x = some n) (hn : n.natAbs < 2 ^ 53)
    (hzero : n = 0 → ¬ isNegative x) : Float.ofInt n = x := by
  obtain ⟨s, e, m, hx, -⟩ := exists_parts x
  have hbinary := Binary.ofFloat_eq hx
  have hsign : isNegative x = decide (s.toBitVec.toNat = 1) := congrArg Binary.negative hbinary
  obtain ⟨hfinite, hint, N, hN, rfl⟩ := exists_magnitude hbinary h
  have htop := exponent_ne_top hx hfinite
  have hlt : N < 2 ^ 53 := by
    split at hn <;> omega
  dsimp only at hint hN hzero ⊢
  by_cases he : e = 0#11
  · subst he
    rw [if_pos rfl, if_pos rfl] at hint hN
    obtain rfl := fraction_eq_zero (by decide) hint
    rw [show (0#52).toNat = 0 from rfl, Nat.zero_mul, Nat.zero_div] at hN
    subst hN
    have hpos := hzero (by simp)
    rw [hsign] at hpos
    apply Double.ext
    rw [hx]
    cases s with
    | negative => exact absurd (by decide) hpos
    | positive => decide
  · rw [if_neg he, if_neg he] at hint hN
    obtain ⟨k, hm, hk, hle⟩ := exists_mantissa_eq rfl hint hN hlt
    have hpos : 0 < N := by
      apply Nat.pos_of_ne_zero
      intro h
      rw [h, Nat.zero_mul, toNat_implicit] at hm
      omega
    simpa using ofInt_bits hx hpos htop (ofNat_bits hlt he htop hm hk hle)

end ScriptFold
