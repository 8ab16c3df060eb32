import ScriptFold.Number.Text
import ScriptFold.Proofs.Numeral
import ScriptFold.Proofs.Shortest

/-!
Numbers as text and back. Main statement: a number is written as ECMAScript lays it out, by the
fewest digits that are read as it, the text stands for exactly what the digits stand for, and
converting it back gives the number.
-/

namespace ScriptFold

open Double

/-- The texts ECMAScript lays out for digits with the decimal point after the first `n` of them. -/
inductive NumberLayout (digits : List Char) (n : ℤ) : List Char → Prop
  | integer {zeros : ℕ} (hn : n = digits.length + zeros) (hlarge : n ≤ 21) :
    NumberLayout digits n (digits ++ List.replicate zeros '0')
  | fixed {whole part : List Char} (hdigits : digits = whole ++ part) (hn : n = whole.length)
    (hwhole : whole ≠ []) (hpart : part ≠ []) (hlarge : n ≤ 21) :
    NumberLayout digits n (whole ++ '.' :: part)
  | small {zeros : ℕ} (hn : n = -zeros) (hsmall : -6 < n) :
    NumberLayout digits n ('0' :: '.' :: List.replicate zeros '0' ++ digits)
  | scientific {first : Char} {rest : List Char} (hdigits : digits = first :: rest)
    (hn : n ≤ -6 ∨ 21 < n) :
    NumberLayout digits n
      (first :: (if rest = [] then [] else '.' :: rest) ++
        'e' :: (if n - 1 < 0 then '-' else '+') :: Nat.toDigits 10 (n - 1).natAbs)

/-- The texts that write out digits with the decimal point after the first `n` of them. -/
inductive PositionalLayout (digits : List Char) (n : ℤ) : List Char → Prop
  | integer {zeros : ℕ} (hn : n = digits.length + zeros) :
    PositionalLayout digits n (digits ++ List.replicate zeros '0')
  | fixed {whole part : List Char} (hdigits : digits = whole ++ part) (hn : n = whole.length)
    (hwhole : whole ≠ []) (hpart : part ≠ []) : PositionalLayout digits n (whole ++ '.' :: part)
  | small {zeros : ℕ} (hn : n = -zeros) :
    PositionalLayout digits n ('0' :: '.' :: List.replicate zeros '0' ++ digits)

theorem PositionalLayout.numberLayout {digits text : List Char} {n : ℤ}
    (h : PositionalLayout digits n text) (hsmall : -6 < n) (hlarge : n ≤ 21) :
    NumberLayout digits n text := by
  cases h with
  | integer hn => exact .integer hn hlarge
  | fixed hdigits hn hwhole hpart => exact .fixed hdigits hn hwhole hpart hlarge
  | small hn => exact .small hn hsmall

namespace Decimal

variable {d : Decimal}

theorem positionalLayout (d : Decimal) :
    PositionalLayout (Nat.toDigits 10 d.digits) d.point d.positionalText := by
  have hpoint : d.point = (Nat.toDigits 10 d.digits).length + d.exponent := rfl
  unfold positionalText zeros
  dsimp only
  split_ifs with hwhole hfixed
  · exact .integer (by omega)
  · have hlt : d.point.toNat < (Nat.toDigits 10 d.digits).length := by omega
    refine .fixed (List.take_append_drop _ _).symm ?_ ?_ ?_
    · rw [List.length_take]
      omega
    · rw [← List.length_pos_iff, List.length_take]
      omega
    · rw [← List.length_pos_iff, List.length_drop]
      omega
  · exact .small (by omega)

theorem layout_exponentText (h : d.point ≤ -6 ∨ 21 < d.point) :
    NumberLayout (Nat.toDigits 10 d.digits) d.point d.exponentText := by
  unfold exponentText
  dsimp only
  split
  · exact absurd (by assumption) Nat.toDigits_ne_nil
  · rename_i digit hdigits
    rw [hdigits]
    exact .scientific rfl h
  · rename_i digit rest hne hdigits
    have hrest : rest ≠ [] := hne
    have htext := NumberLayout.scientific hdigits h
    rwa [if_neg hrest] at htext

theorem layout (d : Decimal) : NumberLayout (Nat.toDigits 10 d.digits) d.point
    (if NumberStyle.ecmaScript.positional d.point then d.positionalText else d.exponentText) := by
  unfold NumberStyle.ecmaScript
  dsimp only
  split_ifs with h
  · rw [Bool.and_eq_true, decide_eq_true_eq, decide_eq_true_eq] at h
    exact d.positionalLayout.numberLayout h.1 h.2
  · rw [Bool.and_eq_true, decide_eq_true_eq, decide_eq_true_eq] at h
    exact layout_exponentText (by omega)

end Decimal

namespace Numeral

theorem natOf_append_zeros (s : List Char) (k : ℕ) :
    natOf (s ++ List.replicate k '0') = natOf s * 10 ^ k := by
  change Nat.ofDigitChars 10 _ 0 = Nat.ofDigitChars 10 s 0 * 10 ^ k
  rw [Nat.ofDigitChars_append, Nat.ofDigitChars_replicate_zero, Nat.mul_comm]

theorem natOf_zeros_append (s : List Char) (k : ℕ) :
    natOf (List.replicate k '0' ++ s) = natOf s := by
  change Nat.ofDigitChars 10 _ 0 = Nat.ofDigitChars 10 s 0
  rw [Nat.ofDigitChars_append, Nat.ofDigitChars_replicate_zero, Nat.mul_zero]

theorem natOf_toDigits (n : ℕ) : natOf (Nat.toDigits 10 n) = n :=
  Nat.ofDigitChars_ten_toDigits

theorem digits_toDigits (n : ℕ) : Digits (Nat.toDigits 10 n) where
  ne_nil := Nat.toDigits_ne_nil
  isDigit _ hc := Nat.isDigit_of_mem_toDigits (by norm_num) (by norm_num) hc

theorem Digits.append_zeros {s : List Char} (h : Digits s) (k : ℕ) :
    Digits (s ++ List.replicate k '0') where
  ne_nil := by simp [h.ne_nil]
  isDigit c hc := by
    rcases List.mem_append.mp hc with hc | hc
    · exact h.isDigit c hc
    · rw [List.eq_of_mem_replicate hc]
      decide

theorem Digits.zeros_append {s : List Char} (h : Digits s) (k : ℕ) :
    Digits (List.replicate k '0' ++ s) where
  ne_nil := by simp [h.ne_nil]
  isDigit c hc := by
    rcases List.mem_append.mp hc with hc | hc
    · rw [List.eq_of_mem_replicate hc]
      decide
    · exact h.isDigit c hc

theorem exponentText_signed (k : ℤ) :
    ExponentText ('e' :: (if k < 0 then '-' else '+') :: Nat.toDigits 10 k.natAbs) k := by
  have hplaces := digits_toDigits k.natAbs
  have hvalue := natOf_toDigits k.natAbs
  split_ifs with h
  · have htext := ExponentText.places (.inl rfl) .minus hplaces
    have hexp : -(natOf (Nat.toDigits 10 k.natAbs) : ℤ) = k := by
      rw [hvalue]
      omega
    rw [if_pos rfl, hexp] at htext
    exact htext
  · have htext := ExponentText.places (.inl rfl) .plus hplaces
    have hexp : (natOf (Nat.toDigits 10 k.natAbs) : ℤ) = k := by
      rw [hvalue]
      omega
    rw [if_neg Bool.false_ne_true, hexp] at htext
    exact htext

theorem mantissaText_scientific {first : Char} {rest : List Char} (h : Digits (first :: rest)) :
    MantissaText (first :: if rest = [] then [] else '.' :: rest) [first] rest := by
  have hfirst : Digits [first] := ⟨by simp, by simpa using h.isDigit first (List.mem_cons_self ..)⟩
  split_ifs with hrest
  · subst hrest
    exact .integer hfirst
  · exact .fixed hfirst ⟨hrest, fun c hc => h.isDigit c (List.mem_cons_of_mem _ hc)⟩

theorem not_blank_of_visible {c : Char} (hlow : 0x20 < c.toNat) (hhigh : c.toNat < 0x7F) :
    ¬ Blank c := by
  unfold Blank whiteSpace lineTerminators
  simp only [List.mem_cons, List.not_mem_nil, or_false]
  omega

theorem not_blank_of_isDigit {c : Char} (h : c.isDigit) : ¬ Blank c := by
  obtain ⟨hlow, hhigh⟩ := Char.isDigit_iff_toNat.mp h
  exact not_blank_of_visible (hlow.trans_lt' (by decide)) (hhigh.trans_lt (by decide))

theorem SignText.not_blank {s : List Char} {negative : Bool} (h : SignText s negative) :
    ∀ c ∈ s, ¬ Blank c := by
  intro c hc
  induction h with
  | none => cases hc
  | plus =>
    rw [List.mem_singleton.mp hc]
    exact not_blank_of_visible (by decide) (by decide)
  | minus =>
    rw [List.mem_singleton.mp hc]
    exact not_blank_of_visible (by decide) (by decide)

theorem MantissaText.not_blank {s whole part : List Char} (h : MantissaText s whole part) :
    ∀ c ∈ s, ¬ Blank c := by
  have hpoint : ¬ Blank '.' := not_blank_of_visible (by decide) (by decide)
  intro c hc
  induction h with
  | integer h => exact not_blank_of_isDigit (h.isDigit c hc)
  | point h =>
    rcases List.mem_append.mp hc with hc | hc
    · exact not_blank_of_isDigit (h.isDigit c hc)
    · rwa [List.mem_singleton.mp hc]
  | fixed h h' =>
    rcases List.mem_append.mp hc with hc | hc
    · exact not_blank_of_isDigit (h.isDigit c hc)
    · rcases List.mem_cons.mp hc with rfl | hc
      · exact hpoint
      · exact not_blank_of_isDigit (h'.isDigit c hc)
  | fraction h =>
    rcases List.mem_cons.mp hc with rfl | hc
    · exact hpoint
    · exact not_blank_of_isDigit (h.isDigit c hc)

theorem ExponentText.not_blank {s : List Char} {e : ℤ} (h : ExponentText s e) :
    ∀ c ∈ s, ¬ Blank c := by
  intro c hc
  induction h with
  | none => cases hc
  | places hmark hsign hplaces =>
    rcases List.mem_append.mp hc with hc | hc
    · rcases List.mem_cons.mp hc with rfl | hc
      · rcases hmark with rfl | rfl <;> exact not_blank_of_visible (by decide) (by decide)
      · exact hsign.not_blank c hc
    · exact not_blank_of_isDigit (hplaces.isDigit c hc)

theorem DecimalText.stripped {s : List Char} {d : DecimalLiteral} (h : DecimalText s d) :
    Stripped s s := by
  have hall : ∀ c ∈ s, ¬ Blank c := by
    intro c hc
    induction h with
    | mk hsign hmantissa htail =>
      rcases List.mem_append.mp hc with hc | hc
      · rcases List.mem_append.mp hc with hc | hc
        · exact hsign.not_blank c hc
        · exact hmantissa.not_blank c hc
      · exact htail.not_blank c hc
  constructor
  · exact ⟨[], [], by simp, by simp, by simp⟩
  · exact fun c hc => hall c (List.mem_of_mem_head? hc)
  · exact fun c hc => hall c (List.mem_of_mem_getLast? hc)

end Numeral

open Numeral

theorem Numeral.DecimalText.plain {sign mantissa whole part : List Char} {negative : Bool}
    (hsign : SignText sign negative) (hmantissa : MantissaText mantissa whole part) :
    DecimalText (sign ++ mantissa) ⟨negative, natOf (whole ++ part), 0 - part.length⟩ := by
  have hliteral := DecimalText.mk hsign hmantissa .none
  rwa [List.append_nil] at hliteral

theorem PositionalLayout.decimalText {digits text sign : List Char} {n : ℤ} {negative : Bool}
    (h : PositionalLayout digits n text) (hdigits : Digits digits)
    (hsign : SignText sign negative) :
    ∃ d : Decimal, DecimalText (sign ++ text) ⟨negative, d⟩ ∧
      d.toRat = natOf digits * 10 ^ (n - digits.length) := by
  cases h with
  | @integer zeros hn =>
    refine ⟨_, .plain hsign (.integer (hdigits.append_zeros zeros)), ?_⟩
    have hexp : n - digits.length = zeros := by omega
    rw [hexp, zpow_natCast]
    unfold Decimal.toRat
    simp only [List.append_nil, List.length_nil, Nat.cast_zero, sub_zero, zpow_zero, mul_one,
      natOf_append_zeros]
    push_cast
    rfl
  | @fixed whole part hsplit hn hwhole hpart =>
    have hrun : ∀ c ∈ whole ++ part, c.isDigit := hsplit ▸ hdigits.isDigit
    refine ⟨_, .plain hsign (.fixed ⟨hwhole, fun c hc => hrun c (List.mem_append_left part hc)⟩
      ⟨hpart, fun c hc => hrun c (List.mem_append_right whole hc)⟩), ?_⟩
    have hexp : n - digits.length = 0 - part.length := by
      rw [hsplit, List.length_append, hn]
      push_cast
      ring
    rw [hexp, hsplit]
    rfl
  | @small zeros hn =>
    refine ⟨_, .plain hsign (.fixed (digits_toDigits 0) (hdigits.zeros_append zeros)), ?_⟩
    have hexp : n - digits.length = 0 - (List.replicate zeros '0' ++ digits).length := by
      rw [List.length_append, List.length_replicate, hn]
      push_cast
      ring
    rw [hexp, ← natOf_zeros_append digits (zeros + 1)]
    rfl

theorem PositionalLayout.chars {digits text : List Char} {n : ℤ}
    (h : PositionalLayout digits n text) (hdigits : Digits digits) :
    (∃ c ∈ text.head?, c.isDigit) ∧ ∀ c ∈ text, c.isDigit ∨ c = '.' := by
  obtain ⟨first, rest, rfl⟩ := List.exists_cons_of_ne_nil hdigits.ne_nil
  cases h with
  | @integer zeros hn =>
    have hall := hdigits.append_zeros zeros
    exact ⟨⟨first, rfl, hdigits.isDigit first (List.mem_cons_self ..)⟩,
      fun c hc => .inl (hall.isDigit c hc)⟩
  | @fixed whole part hsplit hn hwhole hpart =>
    have hall : ∀ c ∈ whole ++ part, c.isDigit := hsplit ▸ hdigits.isDigit
    obtain ⟨c, whole, rfl⟩ := List.exists_cons_of_ne_nil hwhole
    refine ⟨⟨c, rfl, hall c (List.mem_cons_self ..)⟩, fun d hd => ?_⟩
    rcases List.mem_append.mp hd with hd | hd
    · exact .inl (hall d (List.mem_append_left part hd))
    · rcases List.mem_cons.mp hd with rfl | hd
      · exact .inr rfl
      · exact .inl (hall d (List.mem_append_right (c :: whole) hd))
  | @small zeros hn =>
    have hall := hdigits.zeros_append zeros
    refine ⟨⟨'0', rfl, by decide⟩, fun d hd => ?_⟩
    rcases List.mem_cons.mp hd with rfl | hd
    · exact .inl (by decide)
    · rcases List.mem_cons.mp hd with rfl | hd
      · exact .inr rfl
      · exact .inl (hall.isDigit d hd)

theorem Decimal.natOf_digits_mul_point (d : Decimal) :
    (natOf (Nat.toDigits 10 d.digits) * 10 ^ (d.point - (Nat.toDigits 10 d.digits).length) : ℚ) =
      d.toRat := by
  have hexp : d.point - (Nat.toDigits 10 d.digits).length = d.exponent := by
    unfold Decimal.point Decimal.length
    omega
  rw [natOf_toDigits, hexp]
  rfl

theorem NumberLayout.decimalText {digits text sign : List Char} {n : ℤ} {negative : Bool}
    (h : NumberLayout digits n text) (hdigits : Digits digits) (hsign : SignText sign negative) :
    ∃ d : Decimal, DecimalText (sign ++ text) ⟨negative, d⟩ ∧
      d.toRat = natOf digits * 10 ^ (n - digits.length) := by
  cases h with
  | integer hn => exact (PositionalLayout.integer hn).decimalText hdigits hsign
  | fixed hsplit hn hwhole hpart =>
    exact (PositionalLayout.fixed hsplit hn hwhole hpart).decimalText hdigits hsign
  | small hn => exact (PositionalLayout.small hn).decimalText hdigits hsign
  | @scientific first rest hsplit hn =>
    rw [hsplit] at hdigits ⊢
    have hliteral := DecimalText.mk hsign (mantissaText_scientific hdigits)
      (exponentText_signed (n - 1))
    rw [List.append_assoc] at hliteral
    refine ⟨_, hliteral, ?_⟩
    have hexp : n - (first :: rest).length = n - 1 - rest.length := by
      rw [List.length_cons]
      push_cast
      ring
    rw [hexp]
    rfl

namespace Double

open Float.Model (UnpackedFloat Format)
open Float.Model.UnpackedFloat (Sign)

section Fields

variable {x : Float} {s : Sign} {e : Exponent} {m : Fraction}

/-- The fields of a double, read as one number, tell its place above zero. -/
theorem isNumber_ofFloat (hx : x.toModel.toBits.toBitVec = bits s e m)
    (hfields : e = 0#11 → m ≠ 0#52) : (Binary.ofFloat x).IsNumber (e.toNat * 2 ^ 52 + m.toNat) := by
  have hm := m.isLt
  rw [Binary.ofFloat_eq hx]
  by_cases hexp : e = 0#11
  · have hpos : 0 < m.toNat :=
      Nat.pos_of_ne_zero fun h => hfields hexp (BitVec.eq_of_toNat_eq h)
    subst hexp
    constructor
    · exact hpos
    · exact hm.trans (by norm_num)
    · exact .inr rfl
    · exact ⟨0, rfl, by simp⟩
  · have hpos : e.toNat ≠ 0 := fun h => hexp (BitVec.eq_of_toNat_eq h)
    simp only [if_neg hexp, toNat_implicit]
    constructor <;> dsimp only
    · omega
    · omega
    · exact .inl (Nat.le_add_right _ _)
    · exact ⟨e.toNat - 1, by omega, by omega⟩

theorem lt_infinity (htop : e ≠ -1#11) : e.toNat * 2 ^ 52 + m.toNat < infinity := by
  have he := e.isLt
  have hm := m.isLt
  have hne : e.toNat ≠ 2047 := fun h => htop (BitVec.eq_of_toNat_eq h)
  unfold infinity
  omega

theorem eq_nth_of_bits (hx : x.toModel.toBits.toBitVec = bits s e m) (htop : e ≠ -1#11) :
    x = if isNegative x then -nth (e.toNat * 2 ^ 52 + m.toNat)
      else nth (e.toNat * 2 ^ 52 + m.toNat) := by
  have hmin := Nat.min_eq_left (lt_infinity (m := m) htop).le
  have hsign : isNegative x = decide (s.toBitVec.toNat = 1) :=
    congrArg Binary.negative (Binary.ofFloat_eq hx)
  have hbit : Sign.positive.toBitVec.toNat = 0 := rfl
  have hbit' : (-Sign.negative).toBitVec.toNat = 0 := rfl
  rw [hsign]
  cases s with
  | positive =>
    refine (eq_nth ?_).trans (if_neg (by decide)).symm
    rw [hx, toNat_bits, hmin, hbit, Nat.zero_mul, Nat.zero_add]
  | negative =>
    have hneg : -x = nth (e.toNat * 2 ^ 52 + m.toNat) := by
      apply eq_nth
      rw [bits_neg hx htop, toNat_bits, hmin, hbit', Nat.zero_mul, Nat.zero_add]
    rw [if_pos (by decide), ← hneg, neg_neg_float]

end Fields

theorem exists_isNumber {x : Float} (hfinite : x.isFinite) (hzero : (x == 0) = false) :
    ∃ n < infinity, (Binary.ofFloat x).IsNumber n ∧
      x = if isNegative x then -nth n else nth n := by
  obtain ⟨s, e, m, hx, -⟩ := exists_parts x
  have htop := exponent_ne_top hx hfinite
  refine ⟨_, lt_infinity htop, isNumber_ofFloat hx ?_, eq_nth_of_bits hx htop⟩
  rintro rfl rfl
  change UnpackedFloat.beq x.toModel.unpack (0 : Float).toModel.unpack = false at hzero
  rw [unpack_toModel hx] at hzero
  cases hzero

end Double

theorem NumberStyle.toList_text (style : NumberStyle) {x : Float} (hfinite : x.isFinite)
    (hzero : (x == 0) = false) :
    (style.text x).toList = (if isNegative x then ['-'] else []) ++
      (if style.positional (Binary.ofFloat x).shortest.point then
        (Binary.ofFloat x).shortest.positionalText
      else (Binary.ofFloat x).shortest.exponentText) := by
  have hnan : x.isNaN = false := by
    rw [isFinite_eq, Bool.and_eq_true, Bool.not_eq_true'] at hfinite
    exact hfinite.1
  unfold NumberStyle.text
  rw [hnan, hfinite, hzero]
  simp only [Bool.false_eq_true, if_false, Bool.not_true, String.toList_append,
    String.toList_ofList]
  split <;> rfl

/-- The number a decimal literal stands for. -/
def DecimalLiteral.toRat (d : DecimalLiteral) : ℚ :=
  if d.negative then -d.value.toRat else d.value.toRat

/-- How a number is written by the digits of a decimal, and how its text is read. -/
structure WrittenBy (x : Float) (d : Decimal) (text : List Char) : Prop where
  reads : DecimalLiteral.toFloat ⟨isNegative x, d⟩ = x
  fewest : ∀ other : Decimal, DecimalLiteral.toFloat ⟨isNegative x, other⟩ = x →
    Decimal.length d.digits ≤ Decimal.length other.digits
  last : d.digits % 10 ≠ 0
  layout : ∃ magnitude, NumberLayout (Nat.toDigits 10 d.digits) d.point magnitude ∧
    text = (if isNegative x then ['-'] else []) ++ magnitude
  trimmed : trimBlanks text = text
  radix : radix? text = none
  infinity : (sign text).2 ≠ "Infinity".toList
  literal : ∃ literal, decimal? text = some literal ∧
    literal.toRat = DecimalLiteral.toRat ⟨isNegative x, d⟩

theorem Double.neg_injective {x y : Float} (h : -x = -y) : x = y := by
  rw [← neg_neg_float x, h, neg_neg_float]

theorem signText_isNegative (x : Float) :
    SignText (if isNegative x then ['-'] else []) (isNegative x) := by
  cases isNegative x
  · exact .none
  · exact .minus

section Written

variable {x : Float} (hfinite : x.isFinite) (hzero : (x == 0) = false)

include hfinite hzero

/-- A decimal is read as a double exactly if the double is nearest to it. -/
theorem exists_nearest_iff : ∃ n, (Binary.ofFloat x).IsNumber n ∧ ∀ d : Decimal,
    DecimalLiteral.toFloat ⟨isNegative x, d⟩ = x ↔ Nearest d.toRat n := by
  obtain ⟨n, hn, hnumber, hx⟩ := exists_isNumber hfinite hzero
  refine ⟨n, hnumber, fun d => ?_⟩
  have hmagnitude : DecimalLiteral.toFloat ⟨isNegative x, d⟩ = x ↔ d.toFloat = nth n := by
    generalize isNegative x = negative at hx ⊢
    rw [hx]
    cases negative with
    | false => exact Iff.rfl
    | true => exact ⟨neg_injective, fun h => by rw [← h]; rfl⟩
  rw [hmagnitude]
  obtain ⟨k, hk, hread⟩ := d.rounds_toFloat
  rw [hread, nth_eq_iff hn]
  constructor
  · rintro rfl
    exact hk
  · exact hk.unique

/-- A decimal literal of the value of the shortest digits is converted back. -/
theorem stringToNumber_shortest {text : String} {d : Decimal}
    (htext : DecimalText text.toList ⟨isNegative x, d⟩)
    (hvalue : d.toRat = (Binary.ofFloat x).shortest.toRat) : stringToNumber text = x := by
  obtain ⟨n, hnumber, hreads⟩ := exists_nearest_iff hfinite hzero
  rw [stringToNumber_decimal htext htext.stripped, hreads, hvalue]
  exact hnumber.shortest_spec.1

theorem exists_decimalText : ∃ d : Decimal,
    DecimalText (numberToString x).toList ⟨isNegative x, d⟩ ∧
      d.toRat = (Binary.ofFloat x).shortest.toRat := by
  obtain ⟨d, htext, hvalue⟩ := (Binary.ofFloat x).shortest.layout.decimalText (digits_toDigits _)
    (signText_isNegative x)
  rw [Decimal.natOf_digits_mul_point] at hvalue
  exact ⟨d, (NumberStyle.ecmaScript.toList_text hfinite hzero).symm ▸ htext, hvalue⟩

theorem writtenBy : WrittenBy x (Binary.ofFloat x).shortest (numberToString x).toList := by
  obtain ⟨n, hnumber, hreads⟩ := exists_nearest_iff hfinite hzero
  obtain ⟨hnearest, hlast, hfewest⟩ := hnumber.shortest_spec
  obtain ⟨d, htext, hvalue⟩ := exists_decimalText hfinite hzero
  constructor
  · exact (hreads _).mpr hnearest
  · exact fun other hother => hfewest other ((hreads other).mp hother)
  · exact hlast
  · exact ⟨_, (Binary.ofFloat x).shortest.layout,
      NumberStyle.ecmaScript.toList_text hfinite hzero⟩
  · exact htext.stripped.eq_trimBlanks.symm
  · exact htext.radix?
  · exact htext.sign_ne_infinity
  · refine ⟨_, decimal?_eq_some_iff.mpr htext, ?_⟩
    unfold DecimalLiteral.toRat
    dsimp only
    rw [hvalue]

theorem stringToNumber_numberToString : stringToNumber (numberToString x) = x := by
  obtain ⟨d, htext, hvalue⟩ := exists_decimalText hfinite hzero
  exact stringToNumber_shortest hfinite hzero htext hvalue

end Written

open Float.Model (UnpackedFloat) in
open Float.Model.UnpackedFloat (Sign) in
theorem Double.eq_zero_or {x : Float} (hzero : (x == 0) = true) : x = 0 ∨ x = -0 := by
  obtain ⟨s, e, m, hx, -⟩ := exists_parts x
  change UnpackedFloat.beq x.toModel.unpack (0 : Float).toModel.unpack = true at hzero
  rw [unpack_toModel hx] at hzero
  unfold parts at hzero
  split_ifs at hzero with htop hfraction hexp hfraction
  · cases s <;> cases hzero
  · cases hzero
  · rw [hexp, hfraction] at hx
    cases s with
    | positive => exact .inl (Double.ext hx)
    | negative => exact .inr (Double.ext hx)
  · cases s <;> cases hzero
  · cases s <;> cases hzero

/-- The literal of a number in source: it starts with a digit, has only digits and a point, and
stands for the number. -/
structure SourceLiteral (x : Float) (text : String) : Prop where
  first : ∃ c ∈ text.toList.head?, c.isDigit
  chars : ∀ c ∈ text.toList, c.isDigit ∨ c = '.'
  reads : stringToNumber text = x

theorem sourceLiteral {x : Float} (hfinite : x.isFinite) (hsign : isNegative x = false) :
    SourceLiteral x (NumberStyle.source.text x) := by
  cases hzero : x == 0 with
  | true =>
    rcases eq_zero_or hzero with rfl | rfl
    · have htext : NumberStyle.source.text 0 = "0" := by decide +kernel
      rw [htext]
      exact ⟨⟨'0', rfl, by decide⟩, by simp, rfl⟩
    · exact absurd hsign (by decide)
  | false =>
    have hlayout := (Binary.ofFloat x).shortest.positionalLayout
    have hdigits := digits_toDigits (Binary.ofFloat x).shortest.digits
    have htext := NumberStyle.source.toList_text hfinite hzero
    rw [hsign, if_neg Bool.false_ne_true, List.nil_append, NumberStyle.source, if_pos rfl] at htext
    obtain ⟨hfirst, hchars⟩ := hlayout.chars hdigits
    obtain ⟨d, hliteral, hvalue⟩ := hlayout.decimalText hdigits .none
    rw [Decimal.natOf_digits_mul_point] at hvalue
    rw [List.nil_append, ← htext, ← hsign] at hliteral
    rw [← htext] at hfirst hchars
    exact ⟨hfirst, hchars, stringToNumber_shortest hfinite hzero hliteral hvalue⟩

/-- Writing a number is exact: the text has the layout of ECMAScript and the fewest digits, and it
is read as the number it was written for, so numbers other than zero have texts of their own. -/
theorem numberToString_exact (x : Float) (hfinite : x.isFinite) :
    ((x == 0) = false →
      WrittenBy x (Binary.ofFloat x).shortest (numberToString x).toList) ∧
    (x ≠ -0 → stringToNumber (numberToString x) = x) ∧
    ∀ y : Float, y.isFinite → (x == 0) = false → (y == 0) = false →
      numberToString x = numberToString y → x = y := by
  refine ⟨writtenBy hfinite, fun hx => ?_, fun y hy hx hzero heq => ?_⟩
  · cases hzero : x == 0 with
    | true =>
      obtain rfl := (eq_zero_or hzero).resolve_right hx
      rfl
    | false => exact stringToNumber_numberToString hfinite hzero
  · rw [← stringToNumber_numberToString hfinite hx, heq, stringToNumber_numberToString hy hzero]

theorem numberToString_exact_tenth : (0.1 : Float).isFinite ∧
    WrittenBy 0.1 (Binary.ofFloat 0.1).shortest (numberToString 0.1).toList ∧
      stringToNumber (numberToString 0.1) = 0.1 :=
  ⟨by decide, (numberToString_exact 0.1 (by decide)).1 (by decide),
    (numberToString_exact 0.1 (by decide)).2.1 (by decide)⟩

example : numberToString 1e21 = "1e+21" := by decide +kernel

example : numberToString 0.000001 = "0.000001" := by decide +kernel

end ScriptFold
