import ScriptFold.Proofs.Decimal

/-!
The fewest digits that read back. Main statement: the decimal that is found is read as the double it
is found for, no decimal that is read as that double has fewer digits, and it has no zeros at its
end.
-/

namespace ScriptFold

open Double

namespace Decimal

theorem zpow_mul_pow_neg {a : ℚ} (ha : a ≠ 0) (e : ℤ) : a ^ e * a ^ (-e).toNat = a ^ e.toNat := by
  rw [← zpow_natCast, ← zpow_natCast, ← zpow_add₀ ha]
  congr 1
  omega

theorem compareBinary_spec (d : Decimal) (m : ℕ) (q : ℤ) :
    (d.compareBinary m q = .lt ↔ d.toRat < m * 2 ^ q) ∧
      (d.compareBinary m q = .eq ↔ d.toRat = m * 2 ^ q) ∧
        (d.compareBinary m q = .gt ↔ m * 2 ^ q < d.toRat) := by
  have hscale : (0 : ℚ) < 10 ^ (-d.exponent).toNat * 2 ^ (-q).toNat := by positivity
  have hleft : d.toRat * (10 ^ (-d.exponent).toNat * 2 ^ (-q).toNat) =
      (d.digits * Nat.pow 10 d.exponent.toNat * Nat.pow 2 (-q).toNat : ℕ) := by
    have hten := zpow_mul_pow_neg (a := 10) (by norm_num) d.exponent
    unfold toRat
    simp only [Nat.pow_eq]
    push_cast
    linear_combination (d.digits : ℚ) * 2 ^ (-q).toNat * hten
  have hright : (m * 2 ^ q : ℚ) * (10 ^ (-d.exponent).toNat * 2 ^ (-q).toNat) =
      (m * Nat.pow 2 q.toNat * Nat.pow 10 (-d.exponent).toNat : ℕ) := by
    have htwo := zpow_mul_pow_neg (a := 2) (by norm_num) q
    simp only [Nat.pow_eq]
    push_cast
    linear_combination (m : ℚ) * 10 ^ (-d.exponent).toNat * htwo
  unfold compareBinary
  rw [Nat.compare_eq_lt, Nat.compare_eq_eq, Nat.compare_eq_gt]
  refine ⟨?_, ?_, ?_⟩
  · rw [← mul_lt_mul_iff_of_pos_right hscale, hleft, hright, Nat.cast_lt]
  · rw [← mul_left_inj' hscale.ne', hleft, hright, Nat.cast_inj]
  · rw [← mul_lt_mul_iff_of_pos_right hscale, hleft, hright, Nat.cast_lt]

theorem normalize_go {fuel : ℕ} {d : Decimal} (hpos : 0 < d.digits) (hfuel : d.digits < 10 ^ fuel) :
    ∃ t : ℕ, d.digits = (normalize.go fuel d).digits * 10 ^ t ∧
      (normalize.go fuel d).exponent = d.exponent + t ∧ (normalize.go fuel d).digits % 10 ≠ 0 := by
  induction fuel generalizing d with
  | zero => omega
  | succ fuel ih =>
    rw [Nat.pow_succ] at hfuel
    unfold normalize.go
    split
    · obtain ⟨t, hdigits, hexponent, hlast⟩ := ih (d := ⟨d.digits / 10, d.exponent + 1⟩)
        (by dsimp only; omega) (by dsimp only; omega)
      refine ⟨t + 1, ?_, ?_, hlast⟩
      · rw [Nat.pow_succ, ← Nat.mul_assoc, ← hdigits]
        dsimp only
        omega
      · rw [hexponent]
        push_cast
        ring
    · exact ⟨0, by simp, by simp, by assumption⟩

theorem normalize_spec {d : Decimal} (hpos : 0 < d.digits) :
    ∃ t : ℕ, d.digits = d.normalize.digits * 10 ^ t ∧ d.normalize.exponent = d.exponent + t ∧
      d.normalize.digits % 10 ≠ 0 :=
  normalize_go hpos (lt_pow_length d.digits)

theorem toRat_normalize {d : Decimal} (hpos : 0 < d.digits) : d.normalize.toRat = d.toRat := by
  obtain ⟨t, hdigits, hexponent, -⟩ := normalize_spec hpos
  unfold toRat
  rw [hdigits, hexponent, zpow_add₀ (by norm_num), zpow_natCast]
  push_cast
  ring

theorem length_le {n k : ℕ} (hk : 0 < k) (h : n < 10 ^ k) : length n ≤ k :=
  (Nat.length_toDigits_le_iff (by norm_num) hk).mpr h

/-- A power of ten has one digit only that is no zero. -/
theorem length_normalize_le {d : Decimal} {k : ℕ} (hpos : 0 < d.digits) (hk : 0 < k)
    (h : d.digits ≤ 10 ^ k) : length d.normalize.digits ≤ k := by
  obtain ⟨t, hdigits, -, hlast⟩ := normalize_spec hpos
  refine length_le hk ?_
  by_contra hge
  have hone : d.normalize.digits * 10 ^ t ≤ d.normalize.digits * 1 := by omega
  have ht : t = 0 := by
    by_contra ht
    have hten : 10 ≤ 10 ^ t := Nat.le_self_pow ht 10
    nlinarith
  rw [ht, Nat.pow_zero, Nat.mul_one] at hdigits
  obtain ⟨k, rfl⟩ : ∃ j, k = j + 1 := ⟨k - 1, by omega⟩
  rw [Nat.pow_succ] at h hge
  omega

end Decimal

namespace Binary

/-- The parts of the double above zero with a given number. -/
structure IsNumber (b : Binary) (n : ℕ) : Prop where
  pos : 0 < b.mantissa
  lt : b.mantissa < 2 ^ 53
  full : 2 ^ 52 ≤ b.mantissa ∨ b.exponent = -1074
  number : ∃ q : ℕ, b.exponent = q - 1074 ∧ n = q * 2 ^ 52 + b.mantissa

section Interval

variable {b : Binary} {n : ℕ} {d : Decimal}

theorem IsNumber.value (h : b.IsNumber n) : Double.value n = b.mantissa * 2 ^ b.exponent := by
  obtain ⟨q, he, rfl⟩ := h.number
  have hfull := h.full
  rw [value_add h.lt.le (by omega), he]

theorem IsNumber.even_iff (h : b.IsNumber n) : Even n ↔ b.mantissa % 2 = 0 := by
  obtain ⟨q, -, rfl⟩ := h.number
  rw [Nat.even_iff]
  omega

theorem quarter_units (m : ℚ) (e : ℤ) : m * 2 ^ (e - 2) = m / 4 * 2 ^ e := by
  rw [zpow_sub₀ (by norm_num)]
  norm_num
  ring

theorem narrowBelow_iff : b.narrowBelow ↔ b.mantissa = 2 ^ 52 ∧ -1074 < b.exponent := by
  unfold narrowBelow
  rw [Bool.and_eq_true, decide_eq_true_eq, decide_eq_true_eq]
  rfl

theorem IsNumber.low (h : b.IsNumber n) : ∃ k, n = k + 1 ∧ Double.value k + Double.value n =
    2 * ((4 * b.mantissa - if b.narrowBelow then 1 else 2 : ℕ) * 2 ^ (b.exponent - 2)) := by
  have hpos := h.pos
  have hlt := h.lt
  have hfull := h.full
  obtain ⟨q, he, hn⟩ := h.number
  rw [h.value, quarter_units]
  by_cases hnarrow : b.narrowBelow
  · obtain ⟨hm, hexp⟩ := narrowBelow_iff.mp hnarrow
    obtain ⟨p, rfl⟩ : ∃ p, q = p + 1 := ⟨q - 1, by omega⟩
    refine ⟨p * 2 ^ 52 + (2 ^ 53 - 1), by omega, ?_⟩
    rw [value_add (by norm_num) (.inl (by norm_num)), if_pos hnarrow, hm, he]
    have hunit : (2 : ℚ) ^ (((p + 1 : ℕ) : ℤ) - 1074) = 2 * 2 ^ ((p : ℤ) - 1074) := by
      rw [← zpow_one_add₀ (by norm_num)]
      congr 1
      push_cast
      ring
    rw [hunit]
    push_cast
    ring
  · have hwide := narrowBelow_iff.not.mp hnarrow
    rw [if_neg hnarrow]
    generalize b.mantissa = m at *
    obtain ⟨m, rfl⟩ : ∃ k, m = k + 1 := ⟨m - 1, by omega⟩
    have hbelow := value_add (m := m) (q := q) (by omega) (by omega)
    refine ⟨q * 2 ^ 52 + m, by rw [hn, Nat.add_assoc], ?_⟩
    have hcast : ((4 * (m + 1) - 2 : ℕ) : ℚ) = 4 * m + 2 := by
      rw [show 4 * (m + 1) - 2 = 4 * m + 2 by omega]
      push_cast
      rfl
    rw [hbelow, hcast, he]
    push_cast
    ring

theorem IsNumber.high (h : b.IsNumber n) : Double.value n + Double.value (n + 1) =
    2 * ((4 * b.mantissa + 2 : ℕ) * 2 ^ (b.exponent - 2)) := by
  have hlt := h.lt
  have hfull := h.full
  obtain ⟨q, he, hn⟩ := h.number
  rw [h.value, quarter_units, hn, Nat.add_assoc, value_add hlt (by omega), he]
  push_cast
  ring

/-- The decimals of the test are those that are read as the double. -/
theorem IsNumber.readsBack_iff (h : b.IsNumber n) (d : Decimal) :
    b.readsBack d ↔ Nearest d.toRat n := by
  obtain ⟨k, hk, hlow⟩ := h.low
  have hhigh := h.high
  rw [Nearest.iff_neighbours hk, hlow, hhigh, h.even_iff]
  obtain ⟨-, hleq, hlgt⟩ := d.compareBinary_spec
    (4 * b.mantissa - if b.narrowBelow then 1 else 2) (b.exponent - 2)
  obtain ⟨hhlt, hheq, -⟩ := d.compareBinary_spec (4 * b.mantissa + 2) (b.exponent - 2)
  unfold readsBack
  simp only [Bool.and_eq_true, Bool.or_eq_true, decide_eq_true_eq, hleq, hlgt, hhlt, hheq]
  have htwo : (0 : ℚ) < 2 := by norm_num
  rw [mul_lt_mul_iff_of_pos_left htwo, mul_lt_mul_iff_of_pos_left htwo, mul_right_inj' htwo.ne',
    mul_right_inj' htwo.ne', and_comm (b := b.mantissa % 2 = 0), and_comm (b := b.mantissa % 2 = 0),
    eq_comm (a := d.toRat)]

/-- The magnitude lies between its quotient and the next one. -/
theorem floorAt_spec (b : Binary) (e : ℤ) :
    b.floorAt e * 10 ^ e ≤ (b.mantissa * 2 ^ b.exponent : ℚ) ∧
      (b.mantissa * 2 ^ b.exponent : ℚ) < (b.floorAt e + 1) * 10 ^ e := by
  have hdenominator : 0 < 2 ^ (-b.exponent).toNat * 10 ^ e.toNat := by positivity
  have hunit : (0 : ℚ) < 10 ^ e := by positivity
  have hfloor : b.floorAt e = b.mantissa * 2 ^ b.exponent.toNat * 10 ^ (-e).toNat /
      (2 ^ (-b.exponent).toNat * 10 ^ e.toNat) := rfl
  have hscale : (b.mantissa * 2 ^ b.exponent : ℚ) *
      (2 ^ (-b.exponent).toNat * 10 ^ e.toNat : ℕ) =
        (b.mantissa * 2 ^ b.exponent.toNat * 10 ^ (-e).toNat : ℕ) * 10 ^ e := by
    have htwo := Decimal.zpow_mul_pow_neg (a := 2) (by norm_num) b.exponent
    have hten := Decimal.zpow_mul_pow_neg (a := 10) (by norm_num) e
    push_cast
    linear_combination (b.mantissa : ℚ) * 10 ^ e.toNat * htwo -
      b.mantissa * 2 ^ b.exponent.toNat * hten
  have hlow := Nat.div_mul_le_self (b.mantissa * 2 ^ b.exponent.toNat * 10 ^ (-e).toNat)
    (2 ^ (-b.exponent).toNat * 10 ^ e.toNat)
  have hhigh := Nat.lt_mul_div_succ (b.mantissa * 2 ^ b.exponent.toNat * 10 ^ (-e).toNat)
    hdenominator
  rw [← hfloor] at hlow hhigh
  generalize b.mantissa * 2 ^ b.exponent.toNat * 10 ^ (-e).toNat = numerator at *
  generalize 2 ^ (-b.exponent).toNat * 10 ^ e.toNat = denominator at *
  have hpos : (0 : ℚ) < denominator := by exact_mod_cast hdenominator
  have hlow : (b.floorAt e : ℚ) * denominator ≤ numerator := by exact_mod_cast hlow
  have hhigh : (numerator : ℚ) < denominator * (b.floorAt e + 1) := by exact_mod_cast hhigh
  rw [← mul_le_mul_iff_of_pos_right hpos, ← mul_lt_mul_iff_of_pos_right hpos, hscale]
  constructor <;> nlinarith

theorem IsNumber.le_value (h : b.IsNumber n) : 10 ^ (-324 : ℤ) ≤ Double.value n := by
  have hpos : 1 ≤ n := by
    obtain ⟨q, -, rfl⟩ := h.number
    exact h.pos.trans_le (Nat.le_add_left _ _)
  have hpow : (2 ^ 1074 : ℚ) ≤ 10 ^ 324 := by
    exact_mod_cast (by decide +kernel : 2 ^ 1074 ≤ 10 ^ 324)
  calc (10 : ℚ) ^ (-324 : ℤ) ≤ 2 ^ (-1074 : ℤ) := by
        rw [zpow_neg, zpow_neg, zpow_ofNat, zpow_ofNat]
        gcongr
    _ = (1 : ℕ) * 2 ^ (-1074 : ℤ) := by rw [Nat.cast_one, one_mul]
    _ ≤ Double.value 1 := Double.le_value 1
    _ ≤ Double.value n := value_strictMono.monotone hpos

theorem IsNumber.leading (h : b.IsNumber n) :
    10 ^ b.leadingPlace ≤ Double.value n ∧ Double.value n < 10 ^ (b.leadingPlace + 1) := by
  obtain ⟨hlow, hhigh⟩ := b.floorAt_spec (-324)
  have hsmallest := h.le_value
  rw [← h.value] at hlow hhigh
  have hpos : 0 < b.floorAt (-324) := by
    refine Nat.pos_of_ne_zero fun hzero => ?_
    rw [hzero, Nat.cast_zero, zero_add, one_mul] at hhigh
    exact hhigh.not_ge hsmallest
  have hlength := Decimal.length_pos (b.floorAt (-324))
  have hplace : b.leadingPlace = (Decimal.length (b.floorAt (-324)) - 1 : ℕ) + (-324) := by
    unfold leadingPlace
    omega
  have hnext : b.leadingPlace + 1 = (Decimal.length (b.floorAt (-324)) : ℕ) + (-324) := by
    unfold leadingPlace
    omega
  have hfirst : ((10 ^ (Decimal.length (b.floorAt (-324)) - 1) : ℕ) : ℚ) ≤ b.floorAt (-324) :=
    Nat.cast_le.mpr (Decimal.pow_length_le hpos)
  have hlast : (b.floorAt (-324) + 1 : ℚ) ≤ (10 ^ Decimal.length (b.floorAt (-324)) : ℕ) := by
    exact_mod_cast Decimal.lt_pow_length (b.floorAt (-324))
  rw [Nat.cast_pow] at hfirst hlast
  have hten : (10 : ℚ) ≠ 0 := by norm_num
  constructor
  · rw [hplace, zpow_add₀ hten, zpow_natCast]
    exact (mul_le_mul_of_nonneg_right hfirst (by positivity)).trans hlow
  · rw [hnext, zpow_add₀ hten, zpow_natCast]
    exact hhigh.trans_le (mul_le_mul_of_nonneg_right hlast (by positivity))

theorem onGrid?_eq_some {e : ℤ} (h : b.onGrid? e = some d) :
    b.readsBack d ∧ d.exponent = e ∧ (d.digits = b.floorAt e ∨ d.digits = b.floorAt e + 1) := by
  unfold onGrid? at h
  dsimp only at h
  split at h
  · obtain rfl := Option.some.inj h
    split
    · exact ⟨by assumption, rfl, .inl rfl⟩
    · exact ⟨by assumption, rfl, .inr rfl⟩
  · obtain rfl := Option.some.inj h
    exact ⟨by assumption, rfl, .inl rfl⟩
  · obtain rfl := Option.some.inj h
    exact ⟨by assumption, rfl, .inr rfl⟩
  · cases h

theorem onGrid?_eq_none {e : ℤ} (h : b.onGrid? e = none) :
    b.readsBack ⟨b.floorAt e, e⟩ = false ∧ b.readsBack ⟨b.floorAt e + 1, e⟩ = false := by
  unfold onGrid? at h
  dsimp only at h
  split at h
  · cases h
  · cases h
  · cases h
  · exact ⟨by assumption, by assumption⟩

/-- If any decimal of a grid is read back, one next to the magnitude is. -/
theorem IsNumber.onGrid? (h : b.IsNumber n) (hd : Nearest d.toRat n) :
    b.onGrid? d.exponent ≠ none := by
  intro hnone
  obtain ⟨hbelow, habove⟩ := onGrid?_eq_none hnone
  obtain ⟨hlow, hhigh⟩ := b.floorAt_spec d.exponent
  rw [← h.value] at hlow hhigh
  have hself := Nearest.self n
  have hunit : (0 : ℚ) < 10 ^ d.exponent := by positivity
  rcases Nat.lt_or_ge (b.floorAt d.exponent) d.digits with hlt | hge
  · have hnext : Nearest (Decimal.mk (b.floorAt d.exponent + 1) d.exponent).toRat n := by
      have hle : (b.floorAt d.exponent + 1 : ℚ) ≤ d.digits := by exact_mod_cast hlt
      refine hself.convex hd ?_ ?_ ?_ <;> unfold Decimal.toRat <;> push_cast
      · positivity
      · exact hhigh.le
      · gcongr
    rw [← h.readsBack_iff, habove] at hnext
    cases hnext
  · have hprevious : Nearest (Decimal.mk (b.floorAt d.exponent) d.exponent).toRat n := by
      refine hd.convex hself ?_ ?_ hlow <;> unfold Decimal.toRat
      · positivity
      · gcongr
    rw [← h.readsBack_iff, hbelow] at hprevious
    cases hprevious

/-- The numbers that are read as a double lie less than seventeen digits apart. -/
theorem IsNumber.width (h : b.IsNumber n) {k : ℕ} (hk : n = k + 1) :
    2 * Double.value n < (Double.value (n + 1) - Double.value k) * 10 ^ 16 := by
  obtain ⟨l, hl, hlow⟩ := h.low
  obtain rfl : l = k := by omega
  have hhigh := h.high
  have hlt : (b.mantissa : ℚ) < 2 ^ 53 := by exact_mod_cast h.lt
  have hpos := h.pos
  have hunit : (0 : ℚ) < 2 ^ b.exponent := by positivity
  rw [quarter_units] at hlow hhigh
  rw [h.value] at hlow hhigh ⊢
  by_cases hnarrow : b.narrowBelow
  · have hm : (b.mantissa : ℚ) = 2 ^ 52 := by exact_mod_cast (narrowBelow_iff.mp hnarrow).1
    rw [if_pos hnarrow, Nat.cast_sub (by omega)] at hlow
    push_cast at hlow hhigh
    rw [hm] at *
    nlinarith
  · rw [if_neg hnarrow, Nat.cast_sub (by omega)] at hlow
    push_cast at hlow hhigh
    nlinarith

/-- Seventeen digits are enough. -/
theorem IsNumber.onGrid?_last (h : b.IsNumber n) : b.onGrid? (b.leadingPlace - 16) ≠ none := by
  intro hnone
  obtain ⟨hbelow, habove⟩ := onGrid?_eq_none hnone
  obtain ⟨hfloor, hnext⟩ := b.floorAt_spec (b.leadingPlace - 16)
  obtain ⟨k, hk, -⟩ := h.low
  have hwidth := h.width hk
  have hstep := value_lt_succ n
  have hprevious := value_lt_succ k
  rw [← hk] at hprevious
  rw [← h.value] at hfloor hnext
  rw [← Bool.not_eq_true, h.readsBack_iff, Nearest.iff_neighbours hk] at hbelow habove
  have hunit : 10 ^ (b.leadingPlace - 16) * (10 : ℚ) ^ 16 ≤ Double.value n := by
    rw [← zpow_natCast, ← zpow_add₀ (by norm_num)]
    have hexp : b.leadingPlace - 16 + (16 : ℕ) = b.leadingPlace := by omega
    rw [hexp]
    exact h.leading.1
  -- the decimal below is too low, and the one above is too high
  have hlow : 2 * (Decimal.mk (b.floorAt (b.leadingPlace - 16)) (b.leadingPlace - 16)).toRat ≤
      Double.value k + Double.value n := by
    refine not_lt.mp fun hlt => hbelow ⟨.inl hlt, .inl ?_⟩
    unfold Decimal.toRat at *
    linarith
  have hhigh : Double.value n + Double.value (n + 1) ≤
      2 * (Decimal.mk (b.floorAt (b.leadingPlace - 16) + 1) (b.leadingPlace - 16)).toRat := by
    refine not_lt.mp fun hlt => habove ⟨.inl ?_, .inl hlt⟩
    unfold Decimal.toRat at *
    push_cast at *
    linarith
  unfold Decimal.toRat at hlow hhigh
  push_cast at hlow hhigh
  linarith

/-- The first grid on which a decimal is read back tells the digits. -/
theorem IsNumber.exists_shortest (h : b.IsNumber n) : ∃ i d, b.shortest = d.normalize ∧
    b.onGrid? (b.leadingPlace - (i : ℕ)) = some d ∧
      ∀ j < i, b.onGrid? (b.leadingPlace - (j : ℕ)) = none := by
  unfold shortest
  dsimp only
  cases hfound : (List.range 17).findSome? fun (i : ℕ) => b.onGrid? (b.leadingPlace - i) with
  | none =>
    rw [List.findSome?_eq_none_iff] at hfound
    exact absurd (hfound 16 (by decide)) h.onGrid?_last
  | some d =>
    obtain ⟨pre, i, post, hsplit, hd, hbefore⟩ := List.findSome?_eq_some_iff.mp hfound
    have hi : i ∈ List.range 17 := by simp [hsplit]
    have hsorted := List.pairwise_lt_range (n := 17)
    rw [hsplit, List.pairwise_append, List.pairwise_cons] at hsorted
    refine ⟨i, d, rfl, hd, fun j hj => hbefore j ?_⟩
    have hmem : j ∈ pre ++ i :: post := by
      rw [← hsplit, List.mem_range]
      exact hj.trans (List.mem_range.mp hi)
    rcases List.mem_append.mp hmem with hpre | hrest
    · exact hpre
    · rcases List.mem_cons.mp hrest with rfl | hpost
      · omega
      · have := hsorted.2.1.1 j hpost
        omega

theorem floorAt_bounds (h : b.IsNumber n) (i : ℕ) :
    0 < b.floorAt (b.leadingPlace - i) ∧ b.floorAt (b.leadingPlace - i) < 10 ^ (i + 1) := by
  obtain ⟨hlow, hhigh⟩ := b.floorAt_spec (b.leadingPlace - i)
  obtain ⟨hfirst, hlast⟩ := h.leading
  rw [← h.value] at hlow hhigh
  have hunit : (0 : ℚ) < 10 ^ (b.leadingPlace - i) := by positivity
  constructor
  · by_contra hzero
    obtain hzero : b.floorAt (b.leadingPlace - i) = 0 := by omega
    have hle : (10 : ℚ) ^ (b.leadingPlace - i) ≤ 10 ^ b.leadingPlace :=
      zpow_le_zpow_right₀ (by norm_num) (by omega)
    rw [hzero, Nat.cast_zero, zero_add, one_mul] at hhigh
    linarith
  · have hsplit : (10 : ℚ) ^ (b.leadingPlace + 1) = 10 ^ (i + 1) * 10 ^ (b.leadingPlace - i) := by
      rw [← zpow_natCast, ← zpow_add₀ (by norm_num)]
      congr 1
      push_cast
      ring
    have hlt := hlow.trans_lt hlast
    rw [hsplit, mul_lt_mul_iff_of_pos_right hunit] at hlt
    exact_mod_cast hlt

theorem IsNumber.digits_pos (h : b.IsNumber n) (hd : Nearest d.toRat n) : 0 < d.digits := by
  refine Nat.pos_of_ne_zero fun hzero => ?_
  have hvalue : d.toRat = Double.value 0 := by
    rw [Decimal.toRat, hzero, Nat.cast_zero, zero_mul, value_zero]
  rw [hvalue] at hd
  obtain ⟨q, -, hn⟩ := h.number
  have hpos := h.pos
  have heq := hd.unique (.self 0)
  omega

theorem IsNumber.onGrid?_length (h : b.IsNumber n) (hd : Nearest d.toRat n) :
    ∃ j < Decimal.length d.digits, b.onGrid? (b.leadingPlace - (j : ℕ)) ≠ none := by
  have hpos := h.digits_pos hd
  have hlength := Decimal.length_pos d.digits
  have hself := Nearest.self n
  obtain ⟨hfirst, hlast⟩ := h.leading
  rcases Int.lt_or_le b.leadingPlace d.point with hpoint | hpoint
  · -- the grid with this many digits has the decimal on it
    refine ⟨Decimal.length d.digits - 1, by omega, ?_⟩
    obtain ⟨t, ht⟩ : ∃ t : ℕ,
        d.exponent = b.leadingPlace - (Decimal.length d.digits - 1 : ℕ) + t := by
      unfold Decimal.point at hpoint
      exact ⟨(d.exponent - (b.leadingPlace - (Decimal.length d.digits - 1 : ℕ))).toNat, by omega⟩
    refine h.onGrid? (d := ⟨d.digits * 10 ^ t, _⟩) ?_
    have hvalue : (Decimal.mk (d.digits * 10 ^ t)
        (b.leadingPlace - (Decimal.length d.digits - 1 : ℕ))).toRat = d.toRat := by
      unfold Decimal.toRat
      rw [ht, zpow_add₀ (by norm_num), zpow_natCast]
      push_cast
      ring
    rwa [hvalue]
  · -- the decimal is below a power of ten that the magnitude is not below
    refine ⟨0, hlength, ?_⟩
    rw [Nat.cast_zero, sub_zero]
    refine h.onGrid? (d := ⟨1, b.leadingPlace⟩) ?_
    have hvalue : (Decimal.mk 1 b.leadingPlace).toRat = 10 ^ b.leadingPlace := by
      rw [Decimal.toRat, Nat.cast_one, one_mul]
    rw [hvalue]
    refine hd.convex hself (by positivity) ?_ hfirst
    exact (Decimal.toRat_lt d).le.trans (zpow_le_zpow_right₀ (by norm_num) hpoint)

/-- The shortest decimal is read as the double, it has no zeros at its end, and no decimal that is
read as the double has fewer digits. -/
theorem IsNumber.shortest_spec (h : b.IsNumber n) : Nearest b.shortest.toRat n ∧
    b.shortest.digits % 10 ≠ 0 ∧
      ∀ d : Decimal, Nearest d.toRat n →
        Decimal.length b.shortest.digits ≤ Decimal.length d.digits := by
  obtain ⟨i, d, hshortest, hfound, hbefore⟩ := h.exists_shortest
  obtain ⟨hreads, -, hdigits⟩ := onGrid?_eq_some hfound
  obtain ⟨hpos, hlt⟩ := floorAt_bounds h i
  have hd : 0 < d.digits := by omega
  rw [h.readsBack_iff] at hreads
  rw [hshortest, Decimal.toRat_normalize hd]
  refine ⟨hreads, ?_, fun other hother => ?_⟩
  · obtain ⟨t, -, -, hlast⟩ := Decimal.normalize_spec hd
    exact hlast
  · obtain ⟨j, hj, hgrid⟩ := h.onGrid?_length hother
    have hij : i ≤ j := not_lt.mp fun hlt => hgrid (hbefore j hlt)
    exact (Decimal.length_normalize_le hd (Nat.succ_pos i) (by omega)).trans (by omega)

end Interval

end Binary

end ScriptFold
