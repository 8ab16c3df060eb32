import ScriptFold.Proofs.Integer

/-!
The doubles from zero upwards, numbered in order: the number of a double is what its bits stand for
as a natural number. A double has an even mantissa exactly if its number is even, and infinity comes
where the value would be `2 ^ 1024`. Main statement: among the doubles, a number has one that is
nearest to it, where of two that are equally near the even one counts as nearer.
-/

namespace ScriptFold

namespace Double

/-- The value of the double with a given number. Past the last double, values go on as if there
were no bound on exponents. -/
def value (n : ℕ) : ℚ :=
  (if n < 2 ^ 52 then n else 2 ^ 52 + n % 2 ^ 52 : ℕ) * 2 ^ ((max (n / 2 ^ 52) 1 : ℕ) - 1075 : ℤ)

/-- The number in whose place infinity stands. -/
def infinity : ℕ := 2047 * 2 ^ 52

/-- No other double is as near to `v` as the one with number `n`, unless that one is even. -/
def Nearest (v : ℚ) (n : ℕ) : Prop :=
  ∀ k, k ≠ n → |v - value n| < |v - value k| ∨ |v - value n| = |v - value k| ∧ Even n

/-- A mantissa and an exponent, counted from the least, make the number of a double. -/
theorem value_add {m q : ℕ} (hm : m ≤ 2 ^ 53) (h : 2 ^ 52 ≤ m ∨ q = 0) :
    value (q * 2 ^ 52 + m) = m * 2 ^ ((q : ℤ) - 1074) := by
  unfold value
  rcases Nat.lt_or_ge m (2 ^ 52) with hsmall | hlarge
  · obtain rfl : q = 0 := by omega
    rw [Nat.zero_mul, Nat.zero_add, if_pos hsmall, Nat.div_eq_of_lt hsmall]
    norm_num
  · rcases Nat.lt_or_ge m (2 ^ 53) with hlt | hge
    · have hdiv : (q * 2 ^ 52 + m) / 2 ^ 52 = q + 1 := by omega
      have hmod : 2 ^ 52 + (q * 2 ^ 52 + m) % 2 ^ 52 = m := by omega
      have hexp : ((max (q + 1) 1 : ℕ) : ℤ) - 1075 = q - 1074 := by omega
      rw [if_neg (by omega), hdiv, hmod, hexp]
    · obtain rfl : m = 2 ^ 53 := by omega
      have hdiv : (q * 2 ^ 52 + 2 ^ 53) / 2 ^ 52 = q + 2 := by omega
      have hmod : 2 ^ 52 + (q * 2 ^ 52 + 2 ^ 53) % 2 ^ 52 = 2 ^ 52 := by omega
      have hexp : ((max (q + 2) 1 : ℕ) : ℤ) - 1075 = (q - 1074) + 1 := by omega
      rw [if_neg (by omega), hdiv, hmod, hexp, zpow_add_one₀ (by norm_num)]
      push_cast
      ring

theorem exists_mantissa (n : ℕ) :
    ∃ m q, n = q * 2 ^ 52 + m ∧ m < 2 ^ 53 ∧ (2 ^ 52 ≤ m ∨ q = 0) :=
  ⟨n - (n / 2 ^ 52 - 1) * 2 ^ 52, n / 2 ^ 52 - 1, by omega, by omega, by omega⟩

theorem value_lt_succ (n : ℕ) : value n < value (n + 1) := by
  obtain ⟨m, q, rfl, hlt, h⟩ := exists_mantissa n
  rw [Nat.add_assoc, value_add hlt.le h, value_add hlt (by omega)]
  push_cast
  have : (0 : ℚ) < 2 ^ ((q : ℤ) - 1074) := by positivity
  linarith

theorem value_strictMono : StrictMono value :=
  strictMono_nat_of_lt_succ value_lt_succ

theorem value_zero : value 0 = 0 := by
  norm_num [value]

theorem value_infinity : value infinity = 2 ^ 1024 := by
  have h : infinity = 2046 * 2 ^ 52 + 2 ^ 52 := by decide
  have hcast : ((2 ^ 52 : ℕ) : ℚ) = 2 ^ (52 : ℤ) := by norm_num
  rw [h, value_add (by norm_num) (.inl le_rfl), hcast, ← zpow_add₀ (by norm_num)]
  norm_num

/-- Of two numbers, the greater is nearer to `v` if `v` is past the middle between them. -/
theorem nearer_above_iff {a b v : ℚ} (h : a < b) : |v - b| < |v - a| ↔ a + b < 2 * v := by
  have hfactor : (v - a) ^ 2 - (v - b) ^ 2 = (b - a) * (2 * v - (a + b)) := by ring
  rw [← sq_lt_sq, ← sub_pos, hfactor, mul_pos_iff_of_pos_left (by linarith), sub_pos]

theorem nearer_below_iff {a b v : ℚ} (h : a < b) : |v - a| < |v - b| ↔ 2 * v < a + b := by
  have hfactor : (v - b) ^ 2 - (v - a) ^ 2 = (b - a) * (a + b - 2 * v) := by ring
  rw [← sq_lt_sq, ← sub_pos, hfactor, mul_pos_iff_of_pos_left (by linarith), sub_pos]

theorem equally_near_iff {a b v : ℚ} (h : a < b) : |v - b| = |v - a| ↔ a + b = 2 * v := by
  have hbelow := nearer_below_iff (v := v) h
  have habove := nearer_above_iff (v := v) h
  constructor
  · intro heq
    exact le_antisymm (not_lt.mp fun hlt => heq.not_gt (hbelow.mpr hlt))
      (not_lt.mp fun hlt => heq.not_lt (habove.mpr hlt))
  · intro heq
    exact le_antisymm (not_lt.mp fun hlt => (hbelow.mp hlt).ne' heq)
      (not_lt.mp fun hlt => (habove.mp hlt).ne heq)

namespace Nearest

variable {v : ℚ} {n k : ℕ}

/-- It is enough to look at the two neighbours. -/
theorem of_neighbours
    (hlow : ∀ k, n = k + 1 → value k + value n < 2 * v ∨ value k + value n = 2 * v ∧ Even n)
    (hhigh : 2 * v < value n + value (n + 1) ∨ 2 * v = value n + value (n + 1) ∧ Even n) :
    Nearest v n := by
  intro k hk
  rcases Nat.lt_or_gt_of_ne hk with hlt | hgt
  · -- every double below is at most the next one below
    obtain ⟨j, rfl⟩ : ∃ j, n = j + 1 := ⟨n - 1, by omega⟩
    have hkj : value k ≤ value j := value_strictMono.monotone (by omega)
    rw [nearer_above_iff (value_strictMono hlt), equally_near_iff (value_strictMono hlt)]
    rcases hlow j rfl with hj | ⟨hj, heven⟩
    · exact .inl (by linarith)
    · rcases hkj.lt_or_eq with hkj | hkj
      · exact .inl (by linarith)
      · exact .inr ⟨by linarith, heven⟩
  · have hnk : value (n + 1) ≤ value k := value_strictMono.monotone (by omega)
    rw [nearer_below_iff (value_strictMono hgt), eq_comm, equally_near_iff (value_strictMono hgt)]
    rcases hhigh with hn | ⟨hn, heven⟩
    · exact .inl (by linarith)
    · rcases hnk.lt_or_eq with hnk | hnk
      · exact .inl (by linarith)
      · exact .inr ⟨by linarith, heven⟩

theorem low (h : Nearest v n) (hk : n = k + 1) :
    value k + value n < 2 * v ∨ value k + value n = 2 * v ∧ Even n := by
  subst hk
  have hlt := value_lt_succ k
  rw [← nearer_above_iff hlt, ← equally_near_iff hlt]
  exact h k (by omega)

theorem high (h : Nearest v n) :
    2 * v < value n + value (n + 1) ∨ 2 * v = value n + value (n + 1) ∧ Even n := by
  have hlt := value_lt_succ n
  rw [← nearer_below_iff hlt, eq_comm, ← equally_near_iff hlt, eq_comm (a := |_|)]
  exact h (n + 1) (by omega)

theorem iff_neighbours (hk : n = k + 1) : Nearest v n ↔
    (value k + value n < 2 * v ∨ value k + value n = 2 * v ∧ Even n) ∧
      (2 * v < value n + value (n + 1) ∨ 2 * v = value n + value (n + 1) ∧ Even n) := by
  constructor
  · intro h
    exact ⟨h.low hk, h.high⟩
  · intro ⟨hlow, hhigh⟩
    refine of_neighbours (fun j hj => ?_) hhigh
    obtain rfl : k = j := by omega
    exact hlow

theorem self (n : ℕ) : Nearest (value n) n := by
  apply of_neighbours
  · rintro k rfl
    left
    linarith [value_lt_succ k]
  · left
    linarith [value_lt_succ n]

theorem mono {w : ℚ} {l : ℕ} (h : Nearest v n) (hw : Nearest w l) (hvw : v ≤ w) : n ≤ l := by
  by_contra hlt
  obtain ⟨j, rfl⟩ : ∃ j, n = j + 1 := ⟨n - 1, by omega⟩
  have hlj : value l ≤ value j := value_strictMono.monotone (by omega)
  have hstep := value_lt_succ l
  have hnext : value (l + 1) ≤ value (j + 1) := value_strictMono.monotone (by omega)
  -- the two can only meet at the middle between neighbours, which are not both even
  rcases h.low rfl with hlow | ⟨hlow, heven⟩ <;> rcases hw.high with hhigh | ⟨hhigh, heven'⟩
  · linarith
  · linarith
  · linarith
  · have heq : value l = value j := by linarith
    obtain rfl := value_strictMono.injective heq
    exact (Nat.even_add_one.mp heven) heven'

theorem unique {l : ℕ} (h : Nearest v n) (hl : Nearest v l) : n = l :=
  Nat.le_antisymm (h.mono hl le_rfl) (hl.mono h le_rfl)

theorem ge_of_ge (h : Nearest v n) (hv : value k ≤ v) : k ≤ n :=
  (self k).mono h hv

/-- Between two neighbours, the one on whose side of the middle a number lies is nearest to it. -/
theorem of_between (hlow : value n ≤ v) (hhigh : v < value (n + 1)) :
    (2 * v < value n + value (n + 1) → Nearest v n) ∧
      (value n + value (n + 1) < 2 * v → Nearest v (n + 1)) ∧
      (2 * v = value n + value (n + 1) → Nearest v (n + n % 2)) := by
  have hstep := value_lt_succ n
  have hnext := value_lt_succ (n + 1)
  have below : ∀ k, n = k + 1 → value k + value n < 2 * v := by
    rintro k rfl
    linarith [value_lt_succ k]
  refine ⟨fun h => ?_, fun h => ?_, fun h => ?_⟩
  · exact of_neighbours (fun k hk => .inl (below k hk)) (.inl h)
  · refine of_neighbours (fun k hk => ?_) (.inl (by linarith))
    obtain rfl : n = k := by omega
    exact .inl h
  · rcases Nat.even_or_odd n with heven | hodd
    · rw [Nat.even_iff.mp heven, Nat.add_zero]
      exact of_neighbours (fun k hk => .inl (below k hk)) (.inr ⟨h, heven⟩)
    · rw [Nat.odd_iff.mp hodd]
      refine of_neighbours (fun k hk => ?_) (.inl (by linarith))
      obtain rfl : n = k := by omega
      exact .inr ⟨h.symm, hodd.add_one⟩

end Nearest

theorem le_value (n : ℕ) : n * 2 ^ (-1074 : ℤ) ≤ value n := by
  induction n with
  | zero => simp [value_zero]
  | succ n ih =>
    obtain ⟨m, q, rfl, hlt, h⟩ := exists_mantissa n
    rw [value_add hlt.le h] at ih
    rw [Nat.add_assoc, value_add hlt (by omega)]
    have hunit : (2 : ℚ) ^ (-1074 : ℤ) ≤ 2 ^ ((q : ℤ) - 1074) :=
      zpow_le_zpow_right₀ (by norm_num) (by omega)
    generalize (2 : ℚ) ^ (-1074 : ℤ) = least at *
    push_cast at ih ⊢
    linarith

theorem exists_nearest {v : ℚ} (hv : 0 ≤ v) : ∃ n, Nearest v n := by
  have hunit : (0 : ℚ) < 2 ^ (-1074 : ℤ) := by positivity
  have unbounded : ∃ n, v < value n := by
    obtain ⟨n, hn⟩ := exists_nat_gt (v / 2 ^ (-1074 : ℤ))
    exact ⟨n, ((div_lt_iff₀ hunit).mp hn).trans_le (le_value n)⟩
  obtain ⟨n, hn⟩ : ∃ n, Nat.find unbounded = n + 1 := by
    refine ⟨Nat.find unbounded - 1, (Nat.sub_one_add_one ?_).symm⟩
    intro hzero
    have := Nat.find_spec unbounded
    rw [hzero, value_zero] at this
    exact this.not_ge hv
  have hhigh : v < value (n + 1) := hn ▸ Nat.find_spec unbounded
  have hlow : value n ≤ v := not_lt.mp (Nat.find_min unbounded (by omega))
  obtain ⟨hbelow, habove, hmiddle⟩ := Nearest.of_between hlow hhigh
  rcases lt_trichotomy (2 * v) (value n + value (n + 1)) with h | h | h
  · exact ⟨n, hbelow h⟩
  · exact ⟨_, hmiddle h⟩
  · exact ⟨_, habove h⟩

theorem Nearest.convex {u v w : ℚ} {n : ℕ} (h : Nearest u n) (hw : Nearest w n) (hzero : 0 ≤ v)
    (huv : u ≤ v) (hvw : v ≤ w) : Nearest v n := by
  obtain ⟨k, hk⟩ := exists_nearest hzero
  obtain rfl : n = k := Nat.le_antisymm (h.mono hk huv) (hk.mono hw hvw)
  exact hk

open Float.Model (UnpackedFloat Format)

/-- The double with a given number; infinity, once the doubles are used up. -/
def nth (n : ℕ) : Float :=
  Float.ofBits (.ofNat (min n infinity))

theorem word_eq {n : ℕ} (h : n ≤ infinity) : (UInt64.ofNat n).toBitVec =
    bits .positive (.ofNat 11 (n / 2 ^ 52)) (.ofNat 52 (n % 2 ^ 52)) := by
  unfold infinity at h
  have hsign : UnpackedFloat.Sign.positive.toBitVec.toNat = 0 := rfl
  apply BitVec.eq_of_toNat_eq
  rw [toNat_bits, hsign, BitVec.toNat_ofNat, BitVec.toNat_ofNat, UInt64.toNat_toBitVec,
    UInt64.toNat_ofNat']
  omega

theorem top_iff {n : ℕ} (h : n ≤ infinity) :
    BitVec.ofNat 11 (n / 2 ^ 52) = -1#11 ↔ n = infinity := by
  unfold infinity at *
  rw [← BitVec.toNat_inj, BitVec.toNat_ofNat, show (-1#11).toNat = 2047 by decide]
  omega

theorem bits_ofBits (b : UInt64) : (Float.ofBits b).toModel.toBits.toBitVec =
    UnpackedFloat.pack Format.binary64 (UnpackedFloat.unpack Format.binary64 b.toBitVec) :=
  rfl

theorem bits_nth (n : ℕ) : (nth n).toModel.toBits.toBitVec =
    bits .positive (.ofNat 11 (min n infinity / 2 ^ 52)) (.ofNat 52 (min n infinity % 2 ^ 52)) := by
  have h : min n infinity ≤ infinity := Nat.min_le_right _ _
  unfold nth
  rw [bits_ofBits, word_eq h, unpack_bits, pack_parts, if_neg]
  rintro ⟨htop, hfraction⟩
  rw [(top_iff h).mp htop] at hfraction
  exact hfraction rfl

theorem toNat_nth (n : ℕ) : (nth n).toModel.toBits.toBitVec.toNat = min n infinity := by
  have h : min n infinity ≤ infinity := Nat.min_le_right _ _
  rw [bits_nth, ← word_eq h]
  unfold infinity at *
  exact Nat.mod_eq_of_lt (by omega)

theorem eq_nth {x : Float} {n : ℕ} (h : x.toModel.toBits.toBitVec.toNat = min n infinity) :
    x = nth n :=
  Double.ext (BitVec.eq_of_toNat_eq (h.trans (toNat_nth n).symm))

theorem nth_eq_iff {n k : ℕ} (h : n < infinity) : nth k = nth n ↔ k = n := by
  constructor
  · intro heq
    have hbits := toNat_nth k
    rw [heq, toNat_nth] at hbits
    omega
  · rintro rfl
    rfl

theorem nth_infinity {n : ℕ} (h : infinity ≤ n) : nth n = nth infinity := by
  unfold nth
  rw [Nat.min_eq_right h, Nat.min_self]

theorem unpack_nth (n : ℕ) : (nth n).toModel.unpack =
    parts .positive (.ofNat 11 (min n infinity / 2 ^ 52)) (.ofNat 52 (min n infinity % 2 ^ 52)) :=
  unpack_toModel (bits_nth n)

theorem unpack_infinity {n : ℕ} (h : infinity ≤ n) :
    (nth n).toModel.unpack = .infinity .positive := by
  rw [unpack_nth, Nat.min_eq_right h]
  rfl

theorem unpack_zero : (nth 0).toModel.unpack = .zero .positive := by
  rw [unpack_nth, Nat.zero_min]
  rfl

theorem unpack_finite {m q : ℕ} (hm : m < 2 ^ 53) (h : 2 ^ 52 ≤ m ∨ q = 0) (hpos : 0 < m)
    (hfinite : q * 2 ^ 52 + m < infinity) :
    (nth (q * 2 ^ 52 + m)).toModel.unpack = .finite .positive m ((q : ℤ) - 1074) hpos := by
  have hmin : min (q * 2 ^ 52 + m) infinity = q * 2 ^ 52 + m := Nat.min_eq_left hfinite.le
  have htop := (top_iff hfinite.le).not.mpr hfinite.ne
  rw [unpack_nth, hmin]
  unfold infinity at hfinite
  unfold parts
  rw [if_neg htop]
  rcases Nat.lt_or_ge m (2 ^ 52) with hsmall | hlarge
  · obtain rfl : q = 0 := by omega
    have hfraction : BitVec.ofNat 52 ((0 * 2 ^ 52 + m) % 2 ^ 52) ≠ 0#52 := by
      intro hzero
      have := congrArg BitVec.toNat hzero
      simp only [BitVec.toNat_ofNat] at this
      omega
    have hexponent : BitVec.ofNat 11 ((0 * 2 ^ 52 + m) / 2 ^ 52) = 0#11 := by
      rw [show (0 * 2 ^ 52 + m) / 2 ^ 52 = 0 by omega]
    rw [if_pos hexponent, dif_neg hfraction]
    simp only [BitVec.toNat_ofNat, UnpackedFloat.finite.injEq, true_and]
    omega
  · have hexponent : BitVec.ofNat 11 ((q * 2 ^ 52 + m) / 2 ^ 52) ≠ 0#11 := by
      intro hzero
      have := congrArg BitVec.toNat hzero
      simp only [BitVec.toNat_ofNat] at this
      omega
    rw [if_neg hexponent]
    simp only [toNat_implicit, BitVec.toNat_ofNat, UnpackedFloat.finite.injEq, true_and]
    omega

/-- A double is what a number is rounded to: the nearest double, and infinity where they end. -/
def Rounds (v : ℚ) (x : Float) : Prop :=
  ∃ n, Nearest v n ∧ x = nth n

theorem rounds_value (n : ℕ) : Rounds (value n) (nth n) :=
  ⟨n, .self n, rfl⟩

theorem Rounds.eq_nth {v : ℚ} {x : Float} {n : ℕ} (h : Rounds v x) (hn : Nearest v n) :
    x = nth n := by
  obtain ⟨k, hk, rfl⟩ := h
  rw [hk.unique hn]

end Double

end ScriptFold
