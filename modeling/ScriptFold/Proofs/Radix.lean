import ScriptFold.Proofs.Decimal

/-!
Reading digits in a radix that is a power of two, with a rounding after every digit. Main statement:
once the digits read pass `2 ^ 53`, later ones are lost, so the result is the nearest double unless
a tie was rounded before all digits were read.
-/

namespace ScriptFold

namespace Double

theorem rounds_ofNat (n : ℕ) : Rounds n (Float.ofNat n) := by
  rcases Nat.eq_zero_or_pos n with rfl | hpos
  · rw [Nat.cast_zero, ← value_zero]
    exact rounds_value 0
  · have hround := rounds_ofScientific 0 hpos
    rw [zpow_zero, mul_one] at hround
    exact hround

theorem rounds_zero : Rounds (0 : ℕ) 0 :=
  rounds_ofNat 0

theorem exists_value_eq {n : ℕ} (h : n < 2 ^ 53) :
    ∃ k, k < infinity ∧ value k = n ∧ Float.ofNat n = nth k ∧ (0 < n → 0 < k) := by
  rcases Nat.eq_zero_or_pos n with rfl | hpos
  · exact ⟨0, by decide, by rw [value_zero, Nat.cast_zero], zero_eq_nth, id⟩
  · have hvalue : value (number n 0) = n := by rw [value_number hpos h, pow_zero, mul_one]
    have hround := rounds_ofNat n
    rw [← hvalue] at hround
    exact ⟨_, number_lt_infinity hpos h (by norm_num), hvalue, hround.eq_nth (.self _),
      fun _ => number_pos hpos⟩

theorem exists_value_short {m e : ℕ} (hm : m < 2 ^ 53) : ∃ l, value l = m * 2 ^ e := by
  rcases Nat.eq_zero_or_pos m with rfl | hpos
  · exact ⟨0, by rw [value_zero, Nat.cast_zero, zero_mul]⟩
  · exact ⟨_, value_number hpos hm⟩

theorem value_ne_middle (l k : ℕ) : 2 * value l ≠ value k + value (k + 1) := by
  have hstep := value_lt_succ k
  rcases Nat.lt_or_ge k l with hlt | hge
  · have hle : value (k + 1) ≤ value l := value_strictMono.monotone hlt
    linarith
  · have hle : value l ≤ value k := value_strictMono.monotone hge
    linarith

theorem value_scale {n : ℕ} (h : 2 ^ 52 ≤ n) (b : ℕ) :
    value (n + b * 2 ^ 52) = value n * 2 ^ b := by
  obtain ⟨m, q, rfl, hlt, hfull⟩ := exists_mantissa n
  have hfull : 2 ^ 52 ≤ m := by omega
  have hexp : ((q + b : ℕ) : ℤ) - 1074 = ((q : ℤ) - 1074) + b := by
    push_cast
    ring
  have hsum : q * 2 ^ 52 + m + b * 2 ^ 52 = (q + b) * 2 ^ 52 + m := by ring
  rw [hsum, value_add hlt.le (.inl hfull), value_add hlt.le (.inl hfull), hexp,
    zpow_add₀ (by norm_num), zpow_natCast, mul_assoc]

theorem Nearest.scale {v : ℚ} {n : ℕ} (h : Nearest v n) (hn : 2 ^ 52 < n) (b : ℕ) :
    Nearest (v * 2 ^ b) (n + b * 2 ^ 52) := by
  have hpos : (0 : ℚ) < 2 ^ b := by positivity
  have heven : Even n → Even (n + b * 2 ^ 52) := fun hn =>
    hn.add ((by decide : Even (2 ^ 52)).mul_left b)
  have hvalue := value_scale hn.le b
  apply of_neighbours
  · intro k hk
    obtain ⟨j, rfl⟩ : ∃ j, k = j + b * 2 ^ 52 := ⟨k - b * 2 ^ 52, by omega⟩
    rw [hvalue, value_scale (by omega)]
    refine (h.low (k := j) (by omega)).imp (fun hlow => ?_) fun ⟨hlow, hn⟩ => ⟨?_, heven hn⟩
    · nlinarith
    · linear_combination (2 : ℚ) ^ b * hlow
  · rw [Nat.add_right_comm, hvalue, value_scale (by omega)]
    refine h.high.imp (fun hhigh => ?_) fun ⟨hhigh, hn⟩ => ⟨?_, heven hn⟩
    · nlinarith
    · linear_combination (2 : ℚ) ^ b * hhigh

theorem Nearest.large {n k : ℕ} (h : Nearest n k) (hn : 2 ^ 53 ≤ n) : number 1 53 ≤ k := by
  refine h.ge_of_ge ?_
  rw [value_number (by norm_num) (by norm_num), Nat.cast_one, one_mul]
  exact_mod_cast hn

/-- From `2 ^ 53` upwards, doubles are at least two apart. -/
theorem two_le_gap {n : ℕ} (h : number 1 53 ≤ n) : value n + 2 ≤ value (n + 1) := by
  obtain ⟨m, q, rfl, hlt, hfull⟩ := exists_mantissa n
  have hq : 1075 ≤ q := by
    have hnumber : number 1 53 = 1076 * 2 ^ 52 := by decide
    omega
  have hunit : (2 : ℚ) ^ (1 : ℤ) ≤ 2 ^ ((q : ℤ) - 1074) :=
    zpow_le_zpow_right₀ (by norm_num) (by omega)
  rw [Nat.add_assoc, value_add hlt.le hfull, value_add hlt (by omega)]
  rw [zpow_one] at hunit
  push_cast
  linarith

section Step

variable {b d n : ℕ} {x : Float}

/-- Below `2 ^ 53` a digit is read without an error, unless the sum has to be rounded. -/
theorem rounds_step_exact (hb : b < 53) (hd : d < 2 ^ b) (hn : n < 2 ^ 53) (h : Rounds n x) :
    Rounds (n * 2 ^ b + d : ℕ) (x * Float.ofNat (2 ^ b) + Float.ofNat d) := by
  have hradix : 2 ^ b < 2 ^ 53 := Nat.pow_lt_pow_right (by norm_num) hb
  obtain ⟨r, hr, hrvalue, hrfloat, -⟩ := exists_value_eq hradix
  obtain ⟨l, hl, hlvalue, hlfloat, -⟩ := exists_value_eq (hd.trans hradix)
  obtain ⟨k, hk, hkvalue, -⟩ := exists_value_eq hn
  rw [← hkvalue] at h
  rw [h.eq_nth (.self k), hrfloat, hlfloat]
  have hproduct := rounds_mul hk hr
  rw [hkvalue, hrvalue, Nat.cast_pow, Nat.cast_ofNat] at hproduct
  -- the product is a double
  obtain ⟨p, hp, hpvalue⟩ : ∃ p, p < infinity ∧ value p = n * 2 ^ b := by
    rcases Nat.eq_zero_or_pos n with rfl | hpos
    · exact ⟨0, by decide, by rw [value_zero, Nat.cast_zero, zero_mul]⟩
    · exact ⟨_, number_lt_infinity hpos hn (by omega), value_number hpos hn⟩
  rw [← hpvalue] at hproduct
  have hsum := rounds_add hp hl
  rw [← hproduct.eq_nth (.self p), hpvalue, hlvalue] at hsum
  exact_mod_cast hsum

theorem rounds_step_lost (hb : b < 53) (hd : d < 2 ^ b) (hn : 2 ^ 53 ≤ n) (h : Rounds n x) :
    Rounds (n * 2 ^ b : ℕ) (x * Float.ofNat (2 ^ b) + Float.ofNat d) := by
  have hradix : 2 ^ b < 2 ^ 53 := Nat.pow_lt_pow_right (by norm_num) hb
  obtain ⟨r, hr, hrvalue, hrfloat, hrpos⟩ := exists_value_eq hradix
  obtain ⟨l, hl, hlvalue, hlfloat, -⟩ := exists_value_eq (hd.trans hradix)
  have hrpos := hrpos (by positivity)
  obtain ⟨k, hk, rfl⟩ := h
  rw [hrfloat, hlfloat]
  have hlarge := hk.large hn
  have hnumber : number 1 53 = 1076 * 2 ^ 52 := by decide
  have hscale := hk.scale (by omega) b
  refine ⟨k + b * 2 ^ 52, by exact_mod_cast hscale, ?_⟩
  rcases Nat.lt_or_ge k infinity with hfinite | hinfinite
  · have hproduct := rounds_mul hfinite hr
    rw [hrvalue, Nat.cast_pow, Nat.cast_ofNat, ← value_scale (by omega)] at hproduct
    rw [hproduct.eq_nth (.self _)]
    rcases Nat.lt_or_ge (k + b * 2 ^ 52) infinity with hlt | hge
    · -- the digit is less than half the distance to the next double
      have hsum := rounds_add hlt hl
      have hgap := two_le_gap hlarge
      have hd : (d : ℚ) < 2 ^ b := by exact_mod_cast hd
      have hnext : value (k + b * 2 ^ 52) + 2 * 2 ^ b ≤ value (k + b * 2 ^ 52 + 1) := by
        rw [Nat.add_right_comm, value_scale (by omega), value_scale (by omega)]
        nlinarith [show (0 : ℚ) < 2 ^ b by positivity]
      have hdigit : (0 : ℚ) ≤ d := Nat.cast_nonneg d
      rw [hlvalue] at hsum
      exact hsum.eq_nth
        ((Nearest.of_between (by linarith) (by linarith)).1 (by linarith))
    · rw [nth_infinity hge, nth_infinity_add]
  · rw [nth_infinity hinfinite, nth_infinity_mul hrpos, nth_infinity_add,
      nth_infinity (hinfinite.trans (Nat.le_add_right _ _))]

end Step

/-- Past `2 ^ 53`, doubles and the middles between them are integers. -/
theorem exists_middle {n : ℕ} (h : number 1 53 ≤ n) : ∃ k : ℕ, value n + value (n + 1) = 2 * k := by
  obtain ⟨m, q, rfl, hlt, hfull⟩ := exists_mantissa n
  have hq : 1075 ≤ q := by
    have hnumber : number 1 53 = 1076 * 2 ^ 52 := by decide
    omega
  obtain ⟨e, he⟩ : ∃ e : ℕ, (q : ℤ) - 1074 = (e + 1 : ℕ) := ⟨q - 1075, by omega⟩
  refine ⟨(2 * m + 1) * 2 ^ e, ?_⟩
  rw [Nat.add_assoc, value_add hlt.le hfull, value_add hlt (by omega), he, zpow_natCast, pow_succ]
  push_cast
  ring

/-- What is lost of a number past `2 ^ 53` does not matter to its rounding, but for a tie. -/
theorem Nearest.add_lost {n k : ℕ} {θ : ℚ} (hn : 2 ^ 53 ≤ n) (h : Nearest n k) (hzero : 0 ≤ θ)
    (hone : θ < 1) (htie : (2 * n : ℚ) ≠ value k + value (k + 1)) : Nearest (n + θ) k := by
  have hlarge := h.large hn
  apply of_neighbours
  · intro j hj
    rcases h.low hj with hlow | ⟨hlow, heven⟩
    · exact .inl (by linarith)
    · rcases hzero.lt_or_eq with hpos | rfl
      · exact .inl (by linarith)
      · exact .inr ⟨by linarith, heven⟩
  · obtain ⟨m, hm⟩ := exists_middle hlarge
    rw [hm] at htie ⊢
    left
    have hlt : n < m := by
      refine lt_of_le_of_ne ?_ fun heq => htie (by rw [heq])
      rcases h.high with hhigh | ⟨hhigh, -⟩
      · rw [hm] at hhigh
        exact_mod_cast (by linarith : (n : ℚ) ≤ m)
      · rw [hm] at hhigh
        exact_mod_cast (by linarith : (n : ℚ) ≤ m)
    have hle : (n + 1 : ℚ) ≤ m := by exact_mod_cast hlt
    linarith

end Double

namespace Numeral

open Double

/-- What is left of a number if digits after it has passed `2 ^ 53` count as zeros. -/
def kept (radix n : ℕ) : List ℕ → ℕ
  | [] => n
  | d :: ds => kept radix (n * radix + if n < 2 ^ 53 then d else 0) ds

def denoted (radix n : ℕ) : List ℕ → ℕ
  | [] => n
  | d :: ds => denoted radix (n * radix + d) ds

section Loop

variable {b n : ℕ} {ds : List ℕ} {x : Float}

theorem rounds_foldl (hb : b < 53) (hds : ∀ d ∈ ds, d < 2 ^ b) (h : Rounds n x) :
    Rounds (kept (2 ^ b) n ds)
      (ds.foldl (fun x d => x * Float.ofNat (2 ^ b) + Float.ofNat d) x) := by
  induction ds generalizing n x with
  | nil => exact h
  | cons d ds ih =>
    have hd := hds d (List.mem_cons_self ..)
    refine ih (fun d hd => hds d (List.mem_cons_of_mem _ hd)) ?_
    split_ifs with hn
    · exact rounds_step_exact hb hd hn h
    · exact rounds_step_lost hb hd (not_lt.mp hn) h

theorem kept_of_le {radix : ℕ} (hn : 2 ^ 53 ≤ n) (hradix : 0 < radix) :
    kept radix n ds = n * radix ^ ds.length := by
  induction ds generalizing n with
  | nil => exact (Nat.mul_one n).symm
  | cons d ds ih =>
    unfold kept
    rw [if_neg (by omega), Nat.add_zero, ih (hn.trans (Nat.le_mul_of_pos_right n hradix)),
      List.length_cons, Nat.pow_succ', Nat.mul_assoc]

theorem denoted_eq_add {radix : ℕ} (hds : ∀ d ∈ ds, d < radix) :
    ∃ r < radix ^ ds.length, denoted radix n ds = n * radix ^ ds.length + r := by
  induction ds generalizing n with
  | nil => exact ⟨0, by norm_num, by simp [denoted]⟩
  | cons d ds ih =>
    obtain ⟨r, hr, hdenoted⟩ := ih (n := n * radix + d)
      fun d hd => hds d (List.mem_cons_of_mem _ hd)
    have hd := hds d (List.mem_cons_self ..)
    refine ⟨d * radix ^ ds.length + r, ?_, ?_⟩
    · rw [List.length_cons, Nat.pow_succ']
      nlinarith
    · unfold denoted
      rw [hdenoted, List.length_cons]
      ring

theorem denoted_of_zeros {radix : ℕ} (hds : ∀ d ∈ ds, d = 0) :
    denoted radix n ds = n * radix ^ ds.length := by
  induction ds generalizing n with
  | nil => exact (Nat.mul_one n).symm
  | cons d ds ih =>
    unfold denoted
    rw [hds d (List.mem_cons_self ..), ih fun d hd => hds d (List.mem_cons_of_mem _ hd),
      List.length_cons, Nat.pow_succ', Nat.add_zero, Nat.mul_assoc]

theorem denoted_append (radix : ℕ) (pre post : List ℕ) :
    denoted radix n (pre ++ post) = denoted radix (denoted radix n pre) post := by
  induction pre generalizing n with
  | nil => rfl
  | cons d pre ih => exact ih

theorem kept_cases {radix : ℕ} (hradix : 0 < radix) (n : ℕ) (ds : List ℕ) :
    kept radix n ds = denoted radix n ds ∨ ∃ pre post, ds = pre ++ post ∧
      2 ^ 53 ≤ denoted radix n pre ∧
        kept radix n ds = denoted radix n pre * radix ^ post.length := by
  induction ds generalizing n with
  | nil => exact .inl rfl
  | cons d ds ih =>
    rcases Nat.lt_or_ge n (2 ^ 53) with hn | hn
    · unfold kept
      rw [if_pos hn]
      refine (ih (n * radix + d)).imp id fun ⟨pre, post, hsplit, hlarge, hkept⟩ => ?_
      exact ⟨d :: pre, post, by rw [hsplit, List.cons_append], hlarge, hkept⟩
    · exact .inr ⟨[], d :: ds, rfl, hn, kept_of_le hn hradix⟩

end Loop

theorem digit?_lt {radix d : ℕ} {c : Char} (h : digit? radix c = some d) : d < radix := by
  unfold digit? at h
  exact of_decide_eq_true (Option.filter_eq_some_iff.mp h).2

theorem digits_lt {radix : ℕ} {s : List Char} {ds : List ℕ} (h : s.mapM (digit? radix) = some ds) :
    ∀ d ∈ ds, d < radix := by
  induction s generalizing ds with
  | nil =>
    obtain rfl := Option.some.inj h
    simp
  | cons c s ih =>
    rw [List.mapM_cons] at h
    obtain ⟨d, hd, h⟩ := Option.bind_eq_some_iff.mp h
    obtain ⟨rest, hrest, h⟩ := Option.bind_eq_some_iff.mp h
    obtain rfl := Option.some.inj h
    intro e he
    rcases List.mem_cons.mp he with rfl | he
    · exact digit?_lt hd
    · exact ih hrest e he

theorem radixValue_eq {radix : ℕ} {s : List Char} {ds : List ℕ} (hne : s ≠ [])
    (h : s.mapM (digit? radix) = some ds) : radixValue radix s =
      ds.foldl (fun x d => x * Float.ofNat radix + Float.ofNat d) 0 := by
  unfold radixValue
  rw [if_neg (by simpa using hne), h]

section Text

variable {b : ℕ} {s : List Char} {ds : List ℕ}

theorem rounds_radixValue (hb : b < 53) (hne : s ≠ [])
    (h : s.mapM (digit? (2 ^ b)) = some ds) :
    Rounds (kept (2 ^ b) 0 ds) (radixValue (2 ^ b) s) := by
  rw [radixValue_eq hne h]
  exact rounds_foldl hb (digits_lt h) rounds_zero

/-- Digits are read as the nearest double, unless the number comes to the middle between two
doubles before a last digit that counts. -/
theorem rounds_denoted (hb : b < 53) (hne : s ≠ []) (h : s.mapM (digit? (2 ^ b)) = some ds)
    (htie : ∀ pre post, ds = pre ++ post → (∃ d ∈ post, d ≠ 0) →
      ∀ k, 2 * (denoted (2 ^ b) 0 pre : ℚ) ≠ value k + value (k + 1)) :
    Rounds (denoted (2 ^ b) 0 ds) (radixValue (2 ^ b) s) := by
  have hkept := rounds_radixValue hb hne h
  rcases kept_cases (Nat.two_pow_pos b) 0 ds with heq | ⟨pre, post, rfl, hlarge, heq⟩
  · rwa [← heq]
  · rw [heq] at hkept
    rw [denoted_append]
    by_cases hlost : ∃ d ∈ post, d ≠ 0
    · obtain ⟨k, hk⟩ := exists_nearest (v := denoted (2 ^ b) 0 pre) (Nat.cast_nonneg _)
      obtain ⟨r, hr, hdenoted⟩ := denoted_eq_add (n := denoted (2 ^ b) 0 pre)
        fun d hd => digits_lt h d (List.mem_append_right pre hd)
      have hk' := htie pre post rfl hlost k
      rw [hdenoted]
      rw [← Nat.pow_mul] at hr hkept ⊢
      generalize b * post.length = shift at *
      generalize denoted (2 ^ b) 0 pre = p at *
      have hshift : (0 : ℚ) < 2 ^ shift := by positivity
      have hr : (r : ℚ) < 2 ^ shift := by exact_mod_cast hr
      have hclose := hk.add_lost hlarge (θ := r / 2 ^ shift) (by positivity)
        ((div_lt_one hshift).mpr hr) hk'
      have hlow := (hk.large hlarge).trans_lt' (by decide : 2 ^ 52 < number 1 53)
      have hread := hk.scale hlow shift
      have hfull := hclose.scale hlow shift
      have hcast : ((p * 2 ^ shift + r : ℕ) : ℚ) = (p + r / 2 ^ shift) * 2 ^ shift := by
        push_cast
        field_simp
      rw [hcast]
      rw [Nat.cast_mul, Nat.cast_pow, Nat.cast_ofNat] at hkept
      exact ⟨_, hfull, hkept.eq_nth hread⟩
    · have hzeros : ∀ d ∈ post, d = 0 := fun d hd => by_contra fun hne => hlost ⟨d, hd, hne⟩
      rwa [denoted_of_zeros hzeros]

/-- A number of at most `53` bits, but for zeros after them, is read as it is. -/
theorem rounds_short {m e : ℕ} (hb : b < 53) (hne : s ≠ [])
    (h : s.mapM (digit? (2 ^ b)) = some ds) (hm : m < 2 ^ 53)
    (hshort : denoted (2 ^ b) 0 ds = m * 2 ^ e) :
    Rounds (denoted (2 ^ b) 0 ds) (radixValue (2 ^ b) s) := by
  refine rounds_denoted hb hne h ?_
  rintro pre post rfl - k
  obtain ⟨r, hr, hdenoted⟩ := denoted_eq_add (n := denoted (2 ^ b) 0 pre)
    fun d hd => digits_lt h d (List.mem_append_right pre hd)
  rw [denoted_append, hdenoted, ← Nat.pow_mul] at hshort
  rw [← Nat.pow_mul] at hr
  generalize b * post.length = shift at *
  -- what is read of such a number at any time is itself a double
  have hread : denoted (2 ^ b) 0 pre = m * 2 ^ e / 2 ^ shift := by
    rw [← hshort, Nat.mul_comm, Nat.mul_add_div (by positivity), Nat.div_eq_of_lt hr, Nat.add_zero]
  obtain ⟨l, hl⟩ : ∃ l, value l = denoted (2 ^ b) 0 pre := by
    rw [hread]
    rcases le_total shift e with hle | hle
    · obtain ⟨k, rfl⟩ := Nat.exists_eq_add_of_le hle
      obtain ⟨l, hl⟩ := exists_value_short (e := k) hm
      refine ⟨l, ?_⟩
      rw [hl, Nat.pow_add, Nat.mul_left_comm, Nat.mul_div_cancel_left _ (by positivity)]
      push_cast
      rfl
    · obtain ⟨k, rfl⟩ := Nat.exists_eq_add_of_le hle
      obtain ⟨l, -, hl, -⟩ := exists_value_eq ((Nat.div_le_self m (2 ^ k)).trans_lt hm)
      refine ⟨l, ?_⟩
      rw [hl, Nat.pow_add, Nat.mul_comm m, Nat.mul_div_mul_left _ _ (by positivity)]
  rw [← hl]
  exact value_ne_middle l k

end Text

/-- A digit after a tie is lost: `0x20000000000001` is a tie, and `0x200000000000011` is not. -/
theorem not_rounds_tie : ¬ Rounds 0x200000000000011 (radixValue 16 "200000000000011".toList) := by
  have hdigits : "200000000000011".toList.mapM (digit? 16) =
      some [2, 0, 0, 0, 0, 0, 0, 0, 0, 0, 0, 0, 0, 1, 1] := by decide
  have hread := rounds_radixValue (b := 4) (by norm_num) (by decide) hdigits
  have hkept : kept (2 ^ 4) 0 [2, 0, 0, 0, 0, 0, 0, 0, 0, 0, 0, 0, 0, 1, 1] = 2 ^ 57 + 16 := by
    decide
  have hvalue : value (number 1 57) = 2 ^ 57 := by
    rw [value_number (by norm_num) (by norm_num), Nat.cast_one, one_mul]
  have hnumber : number 1 57 = 1079 * 2 ^ 52 + 2 ^ 52 := by decide
  have hnext : value (number 1 57 + 1) = 2 ^ 57 + 2 ^ 5 := by
    rw [hnumber, Nat.add_assoc, value_add (by norm_num) (.inl (by norm_num))]
    norm_num
  -- fourteen digits are a tie, and with the last digit the number is past the middle
  have hbelow := (Nearest.of_between (n := number 1 57) (v := 2 ^ 57 + 16)
    (by rw [hvalue]; norm_num) (by rw [hnext]; norm_num)).2.2 (by rw [hvalue, hnext]; norm_num)
  have habove := (Nearest.of_between (n := number 1 57) (v := 0x200000000000011)
    (by rw [hvalue]; norm_num) (by rw [hnext]; norm_num)).2.1 (by rw [hvalue, hnext]; norm_num)
  rw [hkept] at hread
  intro hexact
  have hread := hread.eq_nth (n := number 1 57) (by exact_mod_cast hbelow)
  have hsame := (nth_eq_iff (by decide)).mp (hread.symm.trans (hexact.eq_nth habove))
  omega

end Numeral

end ScriptFold
