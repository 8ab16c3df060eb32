import ScriptFold.Proofs.Rounding

/-!
Sums, products and quotients of doubles above zero, and doubles made of natural numbers. Main
statement: each of them is the exact result rounded.
-/

namespace ScriptFold

namespace Double

open Float.Model (UnpackedFloat Format)
open Float.Model.UnpackedFloat (Sign Accuracy)

theorem log2_le_log2_mul {m k : ℕ} (hm : 0 < m) (hk : 0 < k) : m.log2 ≤ (m * k).log2 := by
  rw [Nat.le_log2 (by positivity)]
  exact (Nat.log2_self_le hm.ne').trans (Nat.le_mul_of_pos_right m hk)

section Finite

variable {m k : ℕ} {e f : ℤ}

theorem rounds_mul_finite (hm : 0 < m) (hk : 0 < k) (h : 52 ≤ (m * k).log2 ∨ e + f ≤ -1074) :
    Rounds (m * 2 ^ e * (k * 2 ^ f)) (Float.ofModel (Float.Model.pack
      (UnpackedFloat.mul Format.binary64 (.finite .positive m e hm)
        (.finite .positive k f hk)))) := by
  have hround := rounds_roundWithAccuracy (cut_exact.mpr rfl) h
  have hexact : ((m * k : ℕ) + 0) * 2 ^ (e + f) = (m * 2 ^ e * (k * 2 ^ f) : ℚ) := by
    rw [zpow_add₀ (by norm_num)]
    push_cast
    ring
  rw [hexact] at hround
  exact hround

theorem rounds_round (hm : 0 < m) : Rounds (m * 2 ^ e) (Float.ofModel (Float.Model.pack
    (UnpackedFloat.round Format.binary64 .positive m e))) := by
  unfold UnpackedFloat.round UnpackedFloat.decreaseExponent
  rw [targetExponent_eq]
  dsimp only
  rw [Nat.shiftLeft_eq]
  obtain ⟨s, hs⟩ : ∃ s : ℕ, (e - max ((m.log2 : ℤ) + e - 52) (-1074)).toNat = s := ⟨_, rfl⟩
  rw [hs]
  have hround := rounds_roundWithAccuracy (m := m * 2 ^ s) (e := e - s) (cut_exact.mpr rfl)
    (by rw [log2_mul_two_pow hm]; omega)
  have hexact : ((m * 2 ^ s : ℕ) + 0) * 2 ^ (e - s) = (m * 2 ^ e : ℚ) := by
    rw [zpow_sub₀ (by norm_num), zpow_natCast]
    push_cast
    field_simp
    ring
  rw [hexact] at hround
  exact hround

theorem rounds_normalize (hm : 0 < m) : Rounds (m * 2 ^ e) (Float.ofModel
    (Float.Model.pack (UnpackedFloat.normalize Format.binary64 m e .positive))) := by
  have hcompare : compare (m : ℤ) 0 = .gt := Int.compare_eq_gt.mpr (by omega)
  unfold UnpackedFloat.normalize
  rw [hcompare]
  exact rounds_round hm

/-- A sum is computed in units of the smaller exponent, exactly, and then rounded. -/
theorem rounds_add_finite (hm : 0 < m) (hk : 0 < k) :
    Rounds (m * 2 ^ e + k * 2 ^ f) (Float.ofModel (Float.Model.pack
      (UnpackedFloat.add Format.binary64 (.finite .positive m e hm)
        (.finite .positive k f hk)))) := by
  obtain ⟨s, hs⟩ : ∃ s : ℕ, e - min e f = s := ⟨(e - min e f).toNat, by omega⟩
  obtain ⟨t, ht⟩ : ∃ t : ℕ, f - min e f = t := ⟨(f - min e f).toNat, by omega⟩
  have hsum : 0 < m * 2 ^ s + k * 2 ^ t := by positivity
  have hround := rounds_normalize (e := min e f) hsum
  have hexact : ((m * 2 ^ s + k * 2 ^ t : ℕ) : ℚ) * 2 ^ min e f = m * 2 ^ e + k * 2 ^ f := by
    have he : e = s + min e f := by omega
    have hf : f = t + min e f := by omega
    generalize min e f = g at he hf ⊢
    rw [he, hf, zpow_add₀ (by norm_num), zpow_add₀ (by norm_num), zpow_natCast, zpow_natCast]
    push_cast
    ring
  rw [hexact] at hround
  change Rounds _ (Float.ofModel (Float.Model.pack (UnpackedFloat.normalize Format.binary64
    (m <<< (e - min e f).toNat + k <<< (f - min e f).toNat : ℕ) (min e f) .positive)))
  rwa [hs, ht, Int.toNat_natCast, Int.toNat_natCast, Nat.shiftLeft_eq, Nat.shiftLeft_eq]

/-- The remainder of a division tells what part of a unit was cut off. -/
theorem cut_accuracyOfFraction {r d : ℕ} (hd : 0 < d) (hr : r < d) :
    Cut (UnpackedFloat.accuracyOfFraction r d) (r / d) := by
  have hd' : (0 : ℚ) < d := by exact_mod_cast hd
  unfold UnpackedFloat.accuracyOfFraction
  split
  · subst_vars
    simp
  · have hr' : (0 : ℚ) < r := by exact_mod_cast Nat.pos_of_ne_zero (by assumption)
    have hscale : 2 * (r / d : ℚ) = (2 * r : ℕ) / d := by
      push_cast
      ring
    cases hcompare : compare (2 * r) d with
    | lt =>
      rw [Nat.compare_eq_lt] at hcompare
      rw [cut_lt, hscale, div_lt_one hd']
      exact ⟨by positivity, by exact_mod_cast hcompare⟩
    | eq =>
      rw [Nat.compare_eq_eq] at hcompare
      rw [cut_eq, hscale, hcompare, div_self hd'.ne']
    | gt =>
      rw [Nat.compare_eq_gt] at hcompare
      rw [cut_gt, hscale, one_lt_div hd', div_lt_one hd']
      exact ⟨by exact_mod_cast hcompare, by exact_mod_cast hr⟩

theorem le_log2_div (hm : 0 < m) (hk : 0 < k) (h : k.log2 + 53 ≤ m.log2) : 52 ≤ (m / k).log2 := by
  have hlarge : 2 ^ 52 * k ≤ m := by
    calc 2 ^ 52 * k ≤ 2 ^ 52 * 2 ^ (k.log2 + 1) := Nat.mul_le_mul_left _ Nat.lt_log2_self.le
      _ = 2 ^ (k.log2 + 53) := by
        rw [← Nat.pow_add]
        congr 1
        omega
      _ ≤ 2 ^ m.log2 := Nat.pow_le_pow_right (by norm_num) h
      _ ≤ m := Nat.log2_self_le hm.ne'
  have hquotient : 2 ^ 52 ≤ m / k := (Nat.le_div_iff_mul_le hk).mpr hlarge
  exact (Nat.le_log2 (by omega)).mpr hquotient

/-- Quotient and remainder make up the exact result. -/
theorem quotient_add_remainder (hk : 0 < k) {s : ℕ} {t : ℤ} (h : e = s + (t + f)) :
    ((m * 2 ^ s / k : ℕ) + (m * 2 ^ s % k : ℕ) / k) * 2 ^ t = (m * 2 ^ e / (k * 2 ^ f) : ℚ) := by
  have hk' : (k : ℚ) ≠ 0 := by exact_mod_cast hk.ne'
  have hsplit : (k : ℚ) * (m * 2 ^ s / k : ℕ) + (m * 2 ^ s % k : ℕ) = m * 2 ^ s := by
    exact_mod_cast Nat.div_add_mod (m * 2 ^ s) k
  have hunits : (2 : ℚ) ^ e = 2 ^ s * 2 ^ t * 2 ^ f := by
    rw [h, zpow_add₀ (by norm_num), zpow_add₀ (by norm_num), zpow_natCast, mul_assoc]
  rw [hunits]
  field_simp
  linear_combination hsplit

/-- A quotient is computed to enough bits, and the remainder tells what is cut off. -/
theorem rounds_div_finite (hm : 0 < m) (hk : 0 < k) :
    Rounds (m * 2 ^ e / (k * 2 ^ f)) (Float.ofModel (Float.Model.pack
      (UnpackedFloat.div Format.binary64 (.finite .positive m e hm)
        (.finite .positive k f hk)))) := by
  change Rounds _ (Float.ofModel (Float.Model.pack (UnpackedFloat.roundWithAccuracy Format.binary64
    .positive (UnpackedFloat.divCore Format.binary64 m e k f).1
    (UnpackedFloat.divCore Format.binary64 m e k f).2.1
    (UnpackedFloat.divCore Format.binary64 m e k f).2.2)))
  unfold UnpackedFloat.divCore
  have width : (Format.binary64.mantissaBits : ℤ) = 53 := by decide
  have least : Format.binary64.minExponent = -1074 := by decide
  have target : ∃ t : ℤ, min (e - f) (Format.binary64.targetExponent
      (Float.Model.totalExponent m e - Float.Model.totalExponent k f)) = t ∧ t ≤ e - f ∧
        (t ≤ (m.log2 : ℤ) + e - (k.log2 + f) - 53 ∨ t ≤ -1074) := by
    refine ⟨_, rfl, min_le_left _ _, ?_⟩
    unfold Float.Model.Format.targetExponent Float.Model.totalExponent
    omega
  obtain ⟨t, ht, hle, htarget⟩ := target
  obtain ⟨s, hs⟩ : ∃ s : ℕ, (e - f - t).toNat = s := ⟨_, rfl⟩
  simp only [ht, hs, Nat.shiftLeft_eq]
  have hbits : 52 ≤ (m * 2 ^ s / k).log2 ∨ t ≤ -1074 := by
    refine htarget.imp_left fun htarget => le_log2_div (by positivity) hk ?_
    rw [log2_mul_two_pow hm]
    omega
  rw [← quotient_add_remainder (s := s) (t := t) hk (by omega)]
  exact rounds_roundWithAccuracy (cut_accuracyOfFraction hk (Nat.mod_lt (m * 2 ^ s) hk)) hbits

end Finite

theorem exists_finite {n : ℕ} (hpos : 0 < n) (h : n < infinity) :
    ∃ (m : ℕ) (e : ℤ) (hm : 0 < m), (nth n).toModel.unpack = .finite .positive m e hm ∧
      value n = m * 2 ^ e ∧ (52 ≤ m.log2 ∨ e = -1074) := by
  obtain ⟨m, q, rfl, hlt, hfull⟩ := exists_mantissa n
  have hm : 0 < m := by omega
  refine ⟨m, (q : ℤ) - 1074, hm, unpack_finite hlt hfull hm h, value_add hlt.le hfull, ?_⟩
  rcases hfull with hfull | rfl
  · exact .inl ((Nat.le_log2 hm.ne').mpr hfull)
  · exact .inr (by norm_num)

theorem ofModel_pack_unpack (x : Float) :
    Float.ofModel (Float.Model.pack x.toModel.unpack) = x :=
  ofBits_toBits x

theorem unpack_cases (n : ℕ) : (nth n).toModel.unpack = .zero .positive ∨
    (nth n).toModel.unpack = .infinity .positive ∨
    ∃ m e hm, (nth n).toModel.unpack = .finite .positive m e hm := by
  rcases Nat.eq_zero_or_pos n with rfl | hpos
  · exact .inl unpack_zero
  · rcases Nat.lt_or_ge n infinity with hlt | hge
    · obtain ⟨m, e, hm, hunpack, -⟩ := exists_finite hpos hlt
      exact .inr (.inr ⟨m, e, hm, hunpack⟩)
    · exact .inr (.inl (unpack_infinity hge))

theorem nth_add_zero (n : ℕ) : nth n + nth 0 = nth n := by
  refine Eq.trans ?_ (ofModel_pack_unpack (nth n))
  change Float.ofModel (Float.Model.pack (UnpackedFloat.add Format.binary64
    (nth n).toModel.unpack (nth 0).toModel.unpack)) = _
  rw [unpack_zero]
  rcases unpack_cases n with h | h | ⟨m, e, hm, h⟩ <;> rw [h] <;> rfl

theorem nth_zero_add (n : ℕ) : nth 0 + nth n = nth n := by
  refine Eq.trans ?_ (ofModel_pack_unpack (nth n))
  change Float.ofModel (Float.Model.pack (UnpackedFloat.add Format.binary64
    (nth 0).toModel.unpack (nth n).toModel.unpack)) = _
  rw [unpack_zero]
  rcases unpack_cases n with h | h | ⟨m, e, hm, h⟩ <;> rw [h] <;> rfl

theorem nth_zero_mul {n : ℕ} (h : n < infinity) : nth 0 * nth n = nth 0 := by
  change Float.ofModel (Float.Model.pack (UnpackedFloat.mul Format.binary64
    (nth 0).toModel.unpack (nth n).toModel.unpack)) = _
  rw [unpack_zero]
  rcases Nat.eq_zero_or_pos n with rfl | hpos
  · rw [unpack_zero]
    exact eq_nth rfl
  · obtain ⟨m, e, hm, hunpack, -⟩ := exists_finite hpos h
    rw [hunpack]
    exact eq_nth rfl

theorem nth_mul_zero {n : ℕ} (h : n < infinity) : nth n * nth 0 = nth 0 := by
  change Float.ofModel (Float.Model.pack (UnpackedFloat.mul Format.binary64
    (nth n).toModel.unpack (nth 0).toModel.unpack)) = _
  rw [unpack_zero]
  rcases Nat.eq_zero_or_pos n with rfl | hpos
  · rw [unpack_zero]
    exact eq_nth rfl
  · obtain ⟨m, e, hm, hunpack, -⟩ := exists_finite hpos h
    rw [hunpack]
    exact eq_nth rfl

theorem nth_infinity_mul {n : ℕ} (h : 0 < n) : nth infinity * nth n = nth infinity := by
  change Float.ofModel (Float.Model.pack (UnpackedFloat.mul Format.binary64
    (nth infinity).toModel.unpack (nth n).toModel.unpack)) = _
  rw [unpack_infinity le_rfl]
  rcases Nat.lt_or_ge n infinity with hlt | hge
  · obtain ⟨m, e, hm, hunpack, -⟩ := exists_finite h hlt
    rw [hunpack]
    exact eq_nth rfl
  · rw [unpack_infinity hge]
    exact eq_nth rfl

theorem nth_infinity_add (n : ℕ) : nth infinity + nth n = nth infinity := by
  change Float.ofModel (Float.Model.pack (UnpackedFloat.add Format.binary64
    (nth infinity).toModel.unpack (nth n).toModel.unpack)) = _
  rw [unpack_infinity le_rfl]
  rcases unpack_cases n with h | h | ⟨m, e, hm, h⟩ <;> rw [h] <;> exact eq_nth rfl

section Numbers

variable {n k : ℕ}

theorem rounds_mul (hn : n < infinity) (hk : k < infinity) :
    Rounds (value n * value k) (nth n * nth k) := by
  rcases Nat.eq_zero_or_pos n with rfl | hn'
  · rw [nth_zero_mul hk, value_zero, zero_mul, ← value_zero]
    exact rounds_value 0
  · rcases Nat.eq_zero_or_pos k with rfl | hk'
    · rw [nth_mul_zero hn, value_zero, mul_zero, ← value_zero]
      exact rounds_value 0
    · obtain ⟨m, e, hm, hunpack, hvalue, hfull⟩ := exists_finite hn' hn
      obtain ⟨l, f, hl, hunpack', hvalue', hfull'⟩ := exists_finite hk' hk
      have hbits : 52 ≤ (m * l).log2 ∨ e + f ≤ -1074 := by
        have hleft := log2_le_log2_mul hm hl
        have hright := log2_le_log2_mul hl hm
        rw [Nat.mul_comm l m] at hright
        omega
      have hround := rounds_mul_finite hm hl hbits
      rw [← hvalue, ← hvalue', ← hunpack, ← hunpack'] at hround
      exact hround

theorem rounds_div (hn : 0 < n) (hn' : n < infinity) (hk : 0 < k) (hk' : k < infinity) :
    Rounds (value n / value k) (nth n / nth k) := by
  obtain ⟨m, e, hm, hunpack, hvalue, -⟩ := exists_finite hn hn'
  obtain ⟨l, f, hl, hunpack', hvalue', -⟩ := exists_finite hk hk'
  have hround := rounds_div_finite (e := e) (f := f) hm hl
  rw [← hvalue, ← hvalue', ← hunpack, ← hunpack'] at hround
  exact hround

theorem rounds_add (hn : n < infinity) (hk : k < infinity) :
    Rounds (value n + value k) (nth n + nth k) := by
  rcases Nat.eq_zero_or_pos n with rfl | hn'
  · rw [nth_zero_add, value_zero, zero_add]
    exact rounds_value k
  · rcases Nat.eq_zero_or_pos k with rfl | hk'
    · rw [nth_add_zero, value_zero, add_zero]
      exact rounds_value n
    · obtain ⟨m, e, hm, hunpack, hvalue, -⟩ := exists_finite hn' hn
      obtain ⟨l, f, hl, hunpack', hvalue', -⟩ := exists_finite hk' hk
      have hround := rounds_add_finite (e := e) (f := f) hm hl
      rw [← hvalue, ← hvalue', ← hunpack, ← hunpack'] at hround
      exact hround

end Numbers

/-- The number of the double `m * 2 ^ e`, for a mantissa of at most `53` bits. -/
def number (m e : ℕ) : ℕ :=
  (e + m.log2 + 1022) * 2 ^ 52 + m * 2 ^ (52 - m.log2)

section Number

variable {m e : ℕ}

theorem mantissa_bounds (hm : 0 < m) (hlt : m < 2 ^ 53) :
    2 ^ 52 ≤ m * 2 ^ (52 - m.log2) ∧ m * 2 ^ (52 - m.log2) < 2 ^ 53 := by
  have hlog := log2_lt hlt (by norm_num)
  have hbits : (m * 2 ^ (52 - m.log2)).log2 = 52 := by
    rw [log2_mul_two_pow hm]
    omega
  exact (Nat.log2_eq_iff (by positivity)).mp hbits

theorem value_number (hm : 0 < m) (hlt : m < 2 ^ 53) : value (number m e) = m * 2 ^ e := by
  have hlog := log2_lt hlt (by norm_num)
  obtain ⟨hlow, hhigh⟩ := mantissa_bounds hm hlt
  have hexp : ((52 - m.log2 : ℕ) : ℤ) + ((e + m.log2 + 1022 : ℕ) - 1074) = e := by omega
  unfold number
  rw [value_add hhigh.le (.inl hlow), Nat.cast_mul, Nat.cast_pow, Nat.cast_ofNat, mul_assoc,
    ← zpow_natCast, ← zpow_add₀ (by norm_num), hexp, zpow_natCast]

theorem number_pos (hm : 0 < m) : 0 < number m e := by
  unfold number
  positivity

theorem number_lt_infinity (hm : 0 < m) (hlt : m < 2 ^ 53) (he : e ≤ 971) :
    number m e < infinity := by
  have hlog := log2_lt hlt (by norm_num)
  obtain ⟨-, hhigh⟩ := mantissa_bounds hm hlt
  unfold number infinity
  omega

theorem toFloat_eq_nth (hm : 0 < m) (hlt : m < 2 ^ 53) :
    m.toUInt64.toFloat = nth (number m 0) := by
  have hvalue : value (number m 0) = m * 2 ^ (0 : ℤ) := value_number hm hlt
  have hround := rounds_normalize (e := 0) hm
  rw [← hvalue] at hround
  have hword : m.toUInt64.toNat = m := Nat.mod_eq_of_lt (by omega)
  have hfloat : m.toUInt64.toFloat = Float.ofModel (Float.Model.pack
      (UnpackedFloat.normalize Format.binary64 (m.toUInt64.toNat : ℕ) 0 .positive)) := rfl
  rw [hfloat, hword]
  exact hround.eq_nth (.self _)

end Number

end Double

end ScriptFold
