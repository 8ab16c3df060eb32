import ScriptFold.Proofs.Arithmetic
import ScriptFold.Number.Numeral

/-!
Reading decimals. Short ones are computed from a table of powers of ten, the others by exact
arithmetic on naturals. Main statement: a decimal is read as the double nearest to it, however many
digits it has and however large or small it is.
-/

namespace ScriptFold

namespace Double

open Float.Model (UnpackedFloat Format)

theorem rounds_tiny {v : ℚ} (hv : v < 2 ^ (-1075 : ℤ)) : Rounds v (nth 0) := by
  refine ⟨0, .of_neighbours (fun k hk => by omega) (.inl ?_), rfl⟩
  have hleast := le_value 1
  have hunit : (2 : ℚ) ^ (-1074 : ℤ) = 2 * 2 ^ (-1075 : ℤ) := by
    rw [← zpow_one_add₀ (by norm_num)]
    norm_num
  rw [value_zero, zero_add]
  rw [Nat.cast_one, one_mul, hunit] at hleast
  linarith

theorem rounds_huge {v : ℚ} (hv : 2 ^ 1024 ≤ v) : Rounds v (nth infinity) := by
  obtain ⟨n, hn⟩ := exists_nearest ((by positivity : (0 : ℚ) ≤ 2 ^ 1024).trans hv)
  rw [← value_infinity] at hv
  exact ⟨n, hn, (nth_infinity (hn.ge_of_ge hv)).symm⟩

theorem zero_eq_nth : (0 : Float) = nth 0 :=
  eq_nth rfl

theorem inf_eq_nth : (1 / 0 : Float) = nth infinity :=
  eq_nth rfl

/-- The table of the powers of ten that are doubles is right. -/
theorem power_eq_nth {e : ℕ} (he : e < 23) :
    Float.exactlyRepresentablePowersOfTen[e] = nth (number (5 ^ e) e) := by
  interval_cases e <;> rfl

theorem five_pow_lt {e : ℕ} (he : e < 23) : 5 ^ e < 2 ^ 53 :=
  (Nat.pow_le_pow_right (by norm_num) (Nat.le_of_lt_succ he)).trans_lt
    (by norm_num : 5 ^ 22 < 2 ^ 53)

theorem value_power {e : ℕ} (he : e < 23) : value (number (5 ^ e) e) = 10 ^ e := by
  rw [value_number (by positivity) (five_pow_lt he), Nat.cast_pow, Nat.cast_ofNat, ← mul_pow]
  norm_num

theorem ten_zpow_le {e : ℤ} (he : e ≤ 0) : (10 : ℚ) ^ e ≤ 2 ^ e := by
  obtain ⟨k, rfl⟩ : ∃ k : ℕ, e = -k := ⟨(-e).toNat, by omega⟩
  rw [zpow_neg, zpow_neg, zpow_natCast, zpow_natCast]
  gcongr
  norm_num

section Scientific

variable {m : ℕ} {e : ℤ}

theorem two_pow_le_scientific (hm : 0 < m) (he : 2 ^ 11 < e) : (2 : ℚ) ^ 1024 ≤ m * 10 ^ e := by
  have hone : (1 : ℚ) ≤ m := by exact_mod_cast hm
  have hpos : (0 : ℚ) < 10 ^ e := by positivity
  calc (2 : ℚ) ^ 1024 ≤ 10 ^ 1024 := pow_le_pow_left₀ (by norm_num) (by norm_num) 1024
    _ = 10 ^ (1024 : ℤ) := (zpow_natCast 10 1024).symm
    _ ≤ 10 ^ e := zpow_le_zpow_right₀ (by norm_num) (by omega)
    _ ≤ m * 10 ^ e := le_mul_of_one_le_left hpos.le hone

theorem scientific_lt_two_pow (he : e < -(2 ^ 11 + m.log2)) :
    (m : ℚ) * 10 ^ e < 2 ^ (-1075 : ℤ) := by
  have hbound : (m : ℚ) < 2 ^ ((m.log2 + 1 : ℕ) : ℤ) := by
    rw [zpow_natCast]
    exact_mod_cast Nat.lt_log2_self
  calc (m : ℚ) * 10 ^ e ≤ m * 2 ^ e := by gcongr; exact ten_zpow_le (by omega)
    _ < 2 ^ ((m.log2 + 1 : ℕ) : ℤ) * 2 ^ e := by gcongr
    _ = 2 ^ (((m.log2 + 1 : ℕ) : ℤ) + e) := (zpow_add₀ (by norm_num) _ _).symm
    _ ≤ 2 ^ (-1075 : ℤ) := zpow_le_zpow_right₀ (by norm_num) (by omega)

/-- A product with a power of ten, where the shifted mantissa has bits to spare. -/
theorem rounds_mul_pow (hm : 0 < m <<< 53) (k : ℕ) :
    Rounds (m * 10 ^ (k : ℤ)) (Float.ofModel (Float.Model.pack (UnpackedFloat.mul Format.binary64
      (.finite .positive (m <<< 53) (-53) hm)
      (.finite .positive (10 ^ k) 0 (pow_pos (by norm_num) k))))) := by
  have hpow : 0 < 10 ^ k := pow_pos (by norm_num) k
  have hbits := log2_le_log2_mul hm hpow
  have hshift : m <<< 53 = m * 2 ^ 53 := Nat.shiftLeft_eq m 53
  have hpos : 0 < m := by omega
  have hlog : (m <<< 53).log2 = m.log2 + 53 := by rw [hshift, log2_mul_two_pow hpos]
  have hround := rounds_mul_finite (e := -53) (f := 0) hm hpow (.inl (by omega))
  have hexact : ((m <<< 53 : ℕ) : ℚ) * 2 ^ (-53 : ℤ) * ((10 ^ k : ℕ) * 2 ^ (0 : ℤ)) =
      m * 10 ^ (k : ℤ) := by
    rw [hshift, zpow_natCast, zpow_neg, zpow_zero, mul_one]
    push_cast
    field_simp
  rwa [hexact] at hround

theorem rounds_div_pow (hm : 0 < m) (k : ℕ) :
    Rounds (m * 10 ^ (-k : ℤ)) (Float.ofModel (Float.Model.pack (UnpackedFloat.div Format.binary64
      (.finite .positive m 0 hm) (.finite .positive (10 ^ k) 0 (pow_pos (by norm_num) k))))) := by
  have hround := rounds_div_finite (e := 0) (f := 0) hm (pow_pos (by norm_num : 0 < 10) k)
  have hexact : (m * 2 ^ (0 : ℤ) / ((10 ^ k : ℕ) * 2 ^ (0 : ℤ)) : ℚ) = m * 10 ^ (-k : ℤ) := by
    rw [zpow_zero, mul_one, mul_one, zpow_neg, zpow_natCast, div_eq_mul_inv]
    push_cast
    rfl
  rwa [hexact] at hround

/-- The exact arithmetic on naturals rounds, and so do the tests of the exponent before it. -/
theorem rounds_scientific (e : ℤ) (hm : 0 < m) :
    Rounds (m * 10 ^ e) (Float.ofModel (Float.Model.ofScientific m e)) := by
  have width : Format.binary64.exponentBits = 11 := rfl
  change Rounds _ (Float.ofModel (Float.Model.pack
    (UnpackedFloat.ofScientific Format.binary64 m e)))
  unfold UnpackedFloat.ofScientific
  rw [dif_neg hm.ne', width]
  split_ifs with hlarge hsmall hneg
  · have hinfinity : Float.ofModel (Float.Model.pack (.infinity .positive)) = nth infinity :=
      eq_nth rfl
    rw [hinfinity]
    exact rounds_huge (two_pow_le_scientific hm hlarge)
  · have hzero : Float.ofModel (Float.Model.pack (.zero .positive)) = nth 0 := eq_nth rfl
    rw [hzero]
    exact rounds_tiny (scientific_lt_two_pow hsmall)
  · obtain ⟨k, rfl⟩ := Int.eq_ofNat_of_zero_le hneg
    exact rounds_mul_pow _ k
  · obtain ⟨k, rfl⟩ : ∃ k : ℕ, e = -k := ⟨(-e).toNat, by omega⟩
    simp only [neg_neg, Int.toNat_natCast]
    exact rounds_div_pow hm k

end Scientific

section Table

variable {m e : ℕ} (hm : 0 < m) (hlt : m < 2 ^ 53) (he : e < 23)

include hm hlt

theorem rounds_mul_table : Rounds (m * 10 ^ e)
    (m.toUInt64.toFloat * Float.exactlyRepresentablePowersOfTen[e]) := by
  have hpower := five_pow_lt he
  rw [toFloat_eq_nth hm hlt, power_eq_nth he, ← value_power he]
  have hvalue : value (number m 0) = m := by rw [value_number hm hlt, pow_zero, mul_one]
  rw [← hvalue]
  exact rounds_mul (number_lt_infinity hm hlt (by omega))
    (number_lt_infinity (by positivity) hpower (by omega))

theorem rounds_div_table : Rounds (m / 10 ^ e)
    (m.toUInt64.toFloat / Float.exactlyRepresentablePowersOfTen[e]) := by
  have hpower := five_pow_lt he
  rw [toFloat_eq_nth hm hlt, power_eq_nth he, ← value_power he]
  have hvalue : value (number m 0) = m := by rw [value_number hm hlt, pow_zero, mul_one]
  rw [← hvalue]
  exact rounds_div (number_pos hm) (number_lt_infinity hm hlt (by omega))
    (number_pos (by positivity)) (number_lt_infinity (by positivity) hpower (by omega))

end Table

/-- A scientific literal is rounded, also where a short one is computed by way of a table. -/
theorem rounds_ofScientific {m : ℕ} (e : ℤ) (hm : 0 < m) :
    Rounds (m * 10 ^ e) (Float.ofScientific m (e < 0) e.natAbs) := by
  have hslow := rounds_scientific e hm
  unfold Float.ofScientific
  by_cases htable : m < 2 ^ 53 ∧ e.natAbs ≤ 22
  · have he := Nat.lt_succ_of_le htable.2
    rw [dif_pos htable]
    rcases lt_or_ge e 0 with hneg | hneg
    · have hexact : (m * 10 ^ e : ℚ) = m / 10 ^ e.natAbs := by
        rw [div_eq_mul_inv, ← zpow_natCast, ← zpow_neg]
        congr
        omega
      rw [decide_eq_true hneg, hexact]
      exact rounds_div_table hm htable.1 he
    · have hexact : (m * 10 ^ e : ℚ) = m * 10 ^ e.natAbs := by
        rw [← zpow_natCast]
        congr
        omega
      rw [decide_eq_false (by omega), hexact]
      exact rounds_mul_table hm htable.1 he
  · rw [dif_neg htable]
    rcases lt_or_ge e 0 with hneg | hneg
    · have hexp : Int.negOfNat e.natAbs = e := by
        rw [Int.negOfNat_eq, Int.ofNat_eq_natCast]
        omega
      rw [decide_eq_true hneg]
      simp only [if_true, hexp]
      exact hslow
    · have hexp : Int.ofNat e.natAbs = e := Int.natAbs_of_nonneg hneg
      rw [decide_eq_false (by omega)]
      simp only [Bool.false_eq_true, if_false, hexp]
      exact hslow

theorem isNaN_nth (n : ℕ) : (nth n).isNaN = false := by
  change (nth n).toModel.unpack.isNaN = false
  rcases unpack_cases n with h | h | ⟨m, e, hm, h⟩ <;> rw [h] <;> rfl

theorem Rounds.isNaN {v : ℚ} {x : Float} (h : Rounds v x) : x.isNaN = false := by
  obtain ⟨n, -, rfl⟩ := h
  exact isNaN_nth n

theorem isNaN_neg (x : Float) : (-x).isNaN = x.isNaN := by
  obtain ⟨s, e, m, h, canonical⟩ := exists_parts x
  rcases neg_cases h canonical with hx | hx
  · rw [hx]
  · change (-x).toModel.unpack.isNaN = x.toModel.unpack.isNaN
    rw [unpack_toModel hx, unpack_toModel h, ← neg_parts]
    cases parts s e m <;> rfl

end Double

namespace Decimal

open Double

def toRat (d : Decimal) : ℚ :=
  d.digits * 10 ^ d.exponent

theorem length_pos (n : ℕ) : 0 < length n :=
  Nat.length_toDigits_pos

theorem lt_pow_length (n : ℕ) : n < 10 ^ length n :=
  (Nat.length_toDigits_le_iff (by norm_num) (length_pos n)).mp le_rfl

theorem pow_length_le {n : ℕ} (hn : 0 < n) : 10 ^ (length n - 1) ≤ n := by
  rcases Nat.eq_or_lt_of_le (length_pos n) with hone | hlt
  · rw [← hone]
    exact hn
  · by_contra hsmall
    have hle : length n ≤ length n - 1 :=
      (Nat.length_toDigits_le_iff (by norm_num) (by omega)).mpr (not_le.mp hsmall)
    omega

variable {d : Decimal}

theorem toRat_lt (d : Decimal) : d.toRat < 10 ^ d.point := by
  have hlt : (d.digits : ℚ) < 10 ^ (length d.digits : ℤ) := by
    rw [zpow_natCast]
    exact_mod_cast lt_pow_length d.digits
  unfold toRat point
  rw [zpow_add₀ (by norm_num)]
  gcongr

theorem le_toRat (h : 0 < d.digits) : 10 ^ (d.point - 1) ≤ d.toRat := by
  have hle : (10 : ℚ) ^ ((length d.digits - 1 : ℕ) : ℤ) ≤ d.digits := by
    rw [zpow_natCast]
    exact_mod_cast pow_length_le h
  have hpos := length_pos d.digits
  have hexp : d.point - 1 = (length d.digits - 1 : ℕ) + d.exponent := by
    unfold point
    omega
  unfold toRat
  rw [hexp, zpow_add₀ (by norm_num)]
  gcongr

/-- Reading a decimal gives the nearest double. -/
theorem rounds_toFloat (d : Decimal) : Rounds d.toRat d.toFloat := by
  unfold toFloat
  by_cases hzero : d.digits = 0
  · have hexact : d.toRat = value 0 := by
      rw [toRat, hzero, Nat.cast_zero, zero_mul, value_zero]
    rw [if_pos (by simp [hzero]), hexact, zero_eq_nth]
    exact rounds_value 0
  · have hpos : 0 < d.digits := Nat.pos_of_ne_zero hzero
    split_ifs with hsmall hlarge
    · have hpoint : d.point ≤ -331 := by
        simp only [hzero, decide_false, Bool.false_or, decide_eq_true_eq] at hsmall
        omega
      rw [zero_eq_nth]
      apply rounds_tiny
      calc d.toRat < 10 ^ d.point := toRat_lt d
        _ ≤ 10 ^ (-331 : ℤ) := zpow_le_zpow_right₀ (by norm_num) hpoint
        _ ≤ 2 ^ (-1075 : ℤ) := by
          have hpow : (2 ^ 1075 : ℚ) ≤ 10 ^ 331 := by
            exact_mod_cast (by decide +kernel : 2 ^ 1075 ≤ 10 ^ 331)
          rw [zpow_neg, zpow_neg, zpow_ofNat, zpow_ofNat]
          gcongr
    · rw [inf_eq_nth]
      apply rounds_huge
      calc (2 : ℚ) ^ 1024 ≤ 10 ^ 310 := by
            exact_mod_cast (by decide +kernel : 2 ^ 1024 ≤ 10 ^ 310)
        _ = 10 ^ (310 : ℤ) := (zpow_natCast 10 310).symm
        _ ≤ 10 ^ (d.point - 1) := zpow_le_zpow_right₀ (by norm_num) (by omega)
        _ ≤ d.toRat := le_toRat hpos
    · exact rounds_ofScientific d.exponent hpos

end Decimal

theorem DecimalLiteral.isNaN_toFloat (d : DecimalLiteral) : d.toFloat.isNaN = false := by
  unfold toFloat
  have h := d.value.rounds_toFloat.isNaN
  split
  · rw [Double.isNaN_neg, h]
  · exact h

end ScriptFold
