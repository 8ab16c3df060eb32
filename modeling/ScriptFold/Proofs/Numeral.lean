import ScriptFold.Proofs.Radix
import ScriptFold.Proofs.Strip

/-!
The texts that ECMAScript converts into numbers, as a grammar. Main statement: after the blanks at
both ends, exactly the texts of the grammar are converted into a number other than NaN.
-/

namespace ScriptFold

namespace Numeral

structure Digits (s : List Char) : Prop where
  ne_nil : s ≠ []
  isDigit : ∀ c ∈ s, c.isDigit

inductive SignText : List Char → Bool → Prop
  | none : SignText [] false
  | plus : SignText ['+'] false
  | minus : SignText ['-'] true

/-- Digits with or without a point, by the digits before and after it. -/
inductive MantissaText : List Char → List Char → List Char → Prop
  | integer {whole : List Char} (h : Digits whole) : MantissaText whole whole []
  | point {whole : List Char} (h : Digits whole) : MantissaText (whole ++ ['.']) whole []
  | fixed {whole part : List Char} (h : Digits whole) (h' : Digits part) :
    MantissaText (whole ++ '.' :: part) whole part
  | fraction {part : List Char} (h : Digits part) : MantissaText ('.' :: part) [] part

inductive ExponentText : List Char → Int → Prop
  | none : ExponentText [] 0
  | places {mark : Char} {sign places : List Char} {negative : Bool}
    (hmark : mark = 'e' ∨ mark = 'E') (hsign : SignText sign negative) (hplaces : Digits places) :
    ExponentText (mark :: sign ++ places) (if negative then -natOf places else natOf places)

/-- A decimal literal, and what it stands for. -/
inductive DecimalText : List Char → DecimalLiteral → Prop
  | mk {sign mantissa whole part tail : List Char} {negative : Bool} {e : Int}
    (hsign : SignText sign negative) (hmantissa : MantissaText mantissa whole part)
    (htail : ExponentText tail e) :
    DecimalText (sign ++ mantissa ++ tail) ⟨negative, natOf (whole ++ part), e - part.length⟩

section Scan

variable {s rest : List Char} {negative : Bool}

theorem signText_sign (s : List Char) : ∃ pre, SignText pre (sign s).1 ∧ s = pre ++ (sign s).2 := by
  unfold sign
  split
  · exact ⟨_, .minus, rfl⟩
  · exact ⟨_, .plus, rfl⟩
  · exact ⟨_, .none, rfl⟩

theorem sign_append (h : SignText s negative) (hrest : ∀ c ∈ rest.head?, c ≠ '+' ∧ c ≠ '-') :
    sign (s ++ rest) = (negative, rest) := by
  induction h with
  | plus => rfl
  | minus => rfl
  | none =>
    rw [List.nil_append]
    unfold sign
    split
    · exact absurd rfl (hrest _ rfl).2
    · exact absurd rfl (hrest _ rfl).1
    · rfl

theorem span_append {p : Char → Bool} (h : ∀ c ∈ s, p c) (hrest : ∀ c ∈ rest.head?, ¬ p c) :
    (s ++ rest).takeWhile p = s ∧ (s ++ rest).dropWhile p = rest := by
  rw [List.takeWhile_append_of_pos h, List.dropWhile_append_of_pos h]
  cases rest with
  | nil => simp
  | cons c rest =>
    have hc := hrest c rfl
    rw [List.takeWhile_cons_of_neg hc, List.dropWhile_cons_of_neg hc, List.append_nil]
    exact ⟨rfl, rfl⟩

theorem digits_append (h : ∀ c ∈ s, c.isDigit) (hrest : ∀ c ∈ rest.head?, ¬ c.isDigit) :
    digits (s ++ rest) = (s, rest) := by
  obtain ⟨htake, hdrop⟩ := span_append h hrest
  unfold digits
  rw [htake, hdrop]

theorem append_digits (s : List Char) : (digits s).1 ++ (digits s).2 = s :=
  List.takeWhile_append_dropWhile

theorem isDigit_digits {c : Char} (h : c ∈ (digits s).1) : c.isDigit :=
  List.mem_takeWhile_imp h

end Scan

theorem Digits.head {s t : List Char} (h : Digits s) : ∀ c ∈ (s ++ t).head?, c.isDigit := by
  intro c hc
  rw [List.head?_append_of_ne_nil s h.ne_nil] at hc
  exact h.isDigit c (List.mem_of_mem_head? hc)

theorem isDigit_ne_sign {c : Char} (h : c.isDigit) : c ≠ '+' ∧ c ≠ '-' := by
  constructor <;> rintro rfl <;> exact absurd h (by decide)

theorem exponent?_eq_some_iff {s : List Char} {e : Int} :
    exponent? s = some e ↔ ExponentText s e := by
  constructor
  · intro h
    rcases s with _ | ⟨mark, rest⟩
    · obtain rfl := Option.some.inj h
      exact .none
    · obtain ⟨pre, hsign, hrest⟩ := signText_sign rest
      unfold exponent? at h
      dsimp only at h
      generalize sign rest = signed at *
      have hplaces := append_digits signed.2
      have hdigit := @isDigit_digits signed.2
      generalize digits signed.2 = scanned at *
      obtain ⟨hcond, he⟩ := Option.ite_none_right_eq_some.mp h
      simp only [Bool.and_eq_true, Bool.or_eq_true, beq_iff_eq, Bool.not_eq_true',
        List.isEmpty_eq_false_iff, List.isEmpty_iff] at hcond
      obtain ⟨⟨hmark, hne⟩, hend⟩ := hcond
      rw [hend, List.append_nil] at hplaces
      rw [hrest, ← hplaces, ← Option.some.inj he]
      exact .places hmark hsign ⟨hne, fun c => hdigit⟩
  · intro h
    induction h with
    | none => rfl
    | @places mark pre places negative hmark hsign hplaces =>
      have hscan : digits (places ++ []) = (places, []) := digits_append hplaces.isDigit (by simp)
      rw [List.append_nil] at hscan
      have hread : sign (pre ++ places) = (negative, places) := by
        refine sign_append hsign fun c hc => isDigit_ne_sign ?_
        exact hplaces.isDigit c (List.mem_of_mem_head? hc)
      have hcond :
          ((mark == 'e' || mark == 'E') && !places.isEmpty && ([] : List Char).isEmpty) = true := by
        simpa [hplaces.ne_nil] using hmark
      unfold exponent?
      dsimp only [List.cons_append]
      rw [hread]
      dsimp only
      rw [hscan, if_pos hcond]

theorem ExponentText.head {s : List Char} {e : Int} (h : ExponentText s e) :
    ∀ c ∈ s.head?, ¬ c.isDigit ∧ c ≠ '.' := by
  intro c hc
  induction h with
  | none => cases hc
  | places hmark =>
    obtain rfl := Option.some.inj hc
    rcases hmark with rfl | rfl <;> decide

theorem fraction_eq_nil {s : List Char} (h : ∀ c ∈ s.head?, c ≠ '.') : fraction s = ([], s) := by
  unfold fraction
  split
  · exact absurd rfl (h _ rfl)
  · rfl

theorem scan_mantissa {s whole part rest : List Char} (h : MantissaText s whole part)
    (hrest : ∀ c ∈ rest.head?, ¬ c.isDigit ∧ c ≠ '.') :
    (digits (s ++ rest)).1 = whole ∧ fraction (digits (s ++ rest)).2 = (part, rest) := by
  have hstop : ∀ c ∈ rest.head?, ¬ c.isDigit := fun c hc => (hrest c hc).1
  have hnone : digits rest = ([], rest) := digits_append (s := []) (by simp) hstop
  have hpoint : ∀ t, ∀ c ∈ ('.' :: t).head?, ¬ c.isDigit := by
    intro t c hc
    obtain rfl := Option.some.inj hc
    decide
  induction h with
  | integer h =>
    rw [digits_append h.isDigit hstop, fraction_eq_nil fun c hc => (hrest c hc).2]
    exact ⟨rfl, rfl⟩
  | point h =>
    rw [List.append_assoc, List.singleton_append, digits_append h.isDigit (hpoint rest)]
    exact ⟨rfl, hnone⟩
  | fixed h h' =>
    rw [List.append_assoc, List.cons_append, digits_append h.isDigit (hpoint _)]
    exact ⟨rfl, digits_append h'.isDigit hstop⟩
  | @fraction part h =>
    have hfirst : digits ('.' :: (part ++ rest)) = ([], '.' :: (part ++ rest)) :=
      digits_append (s := []) (by simp) (hpoint _)
    rw [List.cons_append, hfirst]
    exact ⟨rfl, digits_append h.isDigit hstop⟩

theorem exists_mantissa {s : List Char} (h : (digits s).1 ≠ [] ∨ (fraction (digits s).2).1 ≠ []) :
    ∃ m, MantissaText m (digits s).1 (fraction (digits s).2).1 ∧
      s = m ++ (fraction (digits s).2).2 := by
  have hsplit := append_digits s
  have hwhole := @isDigit_digits s
  generalize digits s = scanned at *
  obtain ⟨whole, rest⟩ := scanned
  dsimp only at *
  by_cases hpoint : rest.head? = some '.'
  · obtain ⟨tail, rfl⟩ := List.head?_eq_some_iff.mp hpoint
    have hrest := append_digits tail
    have hpart := @isDigit_digits tail
    change whole ≠ [] ∨ (digits tail).1 ≠ [] at h
    change ∃ m, MantissaText m whole (digits tail).1 ∧ s = m ++ (digits tail).2
    generalize digits tail = scanned at *
    obtain ⟨part, rest⟩ := scanned
    dsimp only at *
    subst hrest hsplit
    by_cases hw : whole = []
    · subst hw
      exact ⟨_, .fraction ⟨by simpa using h, fun c => hpart⟩, rfl⟩
    · by_cases hp : part = []
      · subst hp
        exact ⟨_, .point ⟨hw, fun c => hwhole⟩, by simp⟩
      · exact ⟨_, .fixed ⟨hw, fun c => hwhole⟩ ⟨hp, fun c => hpart⟩, by simp⟩
  · rw [fraction_eq_nil (by rintro c hc rfl; exact hpoint hc)] at h ⊢
    exact ⟨whole, .integer ⟨by simpa using h, fun c => hwhole⟩, hsplit.symm⟩

theorem MantissaText.head {m whole part rest : List Char} (h : MantissaText m whole part) :
    ∀ c ∈ (m ++ rest).head?, c.isDigit ∨ c = '.' := by
  intro c hc
  induction h with
  | integer h => exact .inl (h.head c hc)
  | point h =>
    rw [List.append_assoc] at hc
    exact .inl (h.head c hc)
  | fixed h =>
    rw [List.append_assoc] at hc
    exact .inl (h.head c hc)
  | fraction => exact .inr (Option.some.inj hc).symm

theorem MantissaText.not_empty {m whole part : List Char} (h : MantissaText m whole part) :
    (whole.isEmpty && part.isEmpty) = false := by
  induction h with
  | integer h => simp [h.ne_nil]
  | point h => simp [h.ne_nil]
  | fixed h => simp [h.ne_nil]
  | fraction h => simp [h.ne_nil]

/-- A text is read as a decimal literal exactly if it is one. -/
theorem decimal?_eq_some_iff {s : List Char} {d : DecimalLiteral} :
    decimal? s = some d ↔ DecimalText s d := by
  constructor
  · intro h
    obtain ⟨pre, hsign, hs⟩ := signText_sign s
    unfold decimal? at h
    dsimp only at h
    generalize sign s = signed at *
    split at h
    · cases h
    · rename_i hne
      obtain ⟨m, hm, htext⟩ := exists_mantissa (s := signed.2) (by
        simp only [Bool.and_eq_true, List.isEmpty_iff, not_and_or] at hne
        exact hne)
      obtain ⟨e, he, rfl⟩ := Option.map_eq_some_iff.mp h
      have hliteral := DecimalText.mk hsign hm (exponent?_eq_some_iff.mp he)
      rwa [List.append_assoc, ← htext, ← hs] at hliteral
  · intro h
    induction h with
    | @mk pre m whole part tail negative e hsign hmantissa htail =>
      have hread : sign (pre ++ (m ++ tail)) = (negative, m ++ tail) := by
        refine sign_append hsign fun c hc => ?_
        rcases hmantissa.head c hc with hdigit | rfl
        · exact isDigit_ne_sign hdigit
        · decide
      obtain ⟨hwhole, hfraction⟩ := scan_mantissa hmantissa htail.head
      unfold decimal?
      rw [List.append_assoc, hread]
      dsimp only
      rw [hwhole, hfraction]
      dsimp only
      rw [hmantissa.not_empty, exponent?_eq_some_iff.mpr htail]
      rfl

/-- The letters that announce a radix. -/
inductive RadixMark : Char → ℕ → Prop
  | hexadecimal {c : Char} (h : c = 'x' ∨ c = 'X') : RadixMark c 16
  | octal {c : Char} (h : c = 'o' ∨ c = 'O') : RadixMark c 8
  | binary {c : Char} (h : c = 'b' ∨ c = 'B') : RadixMark c 2

def IsDigit (n : ℕ) (c : Char) : Prop :=
  c = n.digitChar ∨ c = n.digitChar.toUpper

instance (n : ℕ) (c : Char) : Decidable (IsDigit n c) :=
  inferInstanceAs (Decidable (_ ∨ _))

/-- A text that stands for a number in ECMAScript, without blanks around it. -/
inductive NumericLiteral : List Char → Prop
  | infinity {sign : List Char} {negative : Bool} (h : SignText sign negative) :
    NumericLiteral (sign ++ "Infinity".toList)
  | decimal {s : List Char} {d : DecimalLiteral} (h : DecimalText s d) : NumericLiteral s
  | radix {mark : Char} {radix : ℕ} {digits : List Char} (hmark : RadixMark mark radix)
    (hne : digits ≠ []) (hdigits : ∀ c ∈ digits, ∃ n < radix, IsDigit n c) :
    NumericLiteral ('0' :: mark :: digits)

theorem radix?_eq_some_iff {s digits : List Char} {radix : ℕ} :
    radix? s = some (radix, digits) ↔ ∃ mark, RadixMark mark radix ∧ s = '0' :: mark :: digits := by
  constructor
  · intro h
    unfold radix? at h
    split at h
    · simp only [Bool.or_eq_true, beq_iff_eq] at h
      split_ifs at h with hx ho hb <;> obtain ⟨rfl, rfl⟩ := Prod.mk.inj (Option.some.inj h)
      · exact ⟨_, .hexadecimal hx, rfl⟩
      · exact ⟨_, .octal ho, rfl⟩
      · exact ⟨_, .binary hb, rfl⟩
    · cases h
  · rintro ⟨mark, hmark, rfl⟩
    induction hmark with
    | hexadecimal h => rcases h with rfl | rfl <;> rfl
    | octal h => rcases h with rfl | rfl <;> rfl
    | binary h => rcases h with rfl | rfl <;> rfl

theorem RadixMark.exists_bits {mark : Char} {radix : ℕ} (h : RadixMark mark radix) :
    ∃ b ≤ 4, radix = 2 ^ b := by
  induction h with
  | hexadecimal => exact ⟨4, by norm_num, rfl⟩
  | octal => exact ⟨3, by norm_num, rfl⟩
  | binary => exact ⟨1, by norm_num, rfl⟩

theorem digit?_sixteen {n : ℕ} {c : Char} : digit? 16 c = some n ↔ n < 16 ∧ IsDigit n c := by
  by_cases hc : c.toNat < 128
  · have hascii : ∀ n < 16, ∀ m < 128,
        digit? 16 (Char.ofNat m) = some n ↔ IsDigit n (Char.ofNat m) := by decide +kernel
    by_cases hn : n < 16
    · have := hascii n hn c.toNat hc
      rw [Char.ofNat_toNat] at this
      simp [this, hn]
    · exact iff_of_false (fun h => hn (digit?_lt h)) fun h => hn h.1
  · have hlarge : ∀ d : Char, d.toNat < 128 → ¬ c ≤ d := fun d hd hle => by
      have hle : c.toNat ≤ d.toNat := hle
      omega
    have hnone : digit? 16 c = none := by
      unfold digit?
      simp [hlarge '9' (by decide), hlarge 'z' (by decide), hlarge 'Z' (by decide)]
    have hascii : ∀ n < 16, n.digitChar.toNat < 128 ∧ n.digitChar.toUpper.toNat < 128 := by
      decide
    rw [hnone]
    refine iff_of_false (by simp) fun ⟨hn, hdigit⟩ => hc ?_
    rcases hdigit with rfl | rfl
    · exact (hascii n hn).1
    · exact (hascii n hn).2

theorem digit?_eq_some_iff {radix n : ℕ} {c : Char} (h : radix ≤ 16) :
    digit? radix c = some n ↔ n < radix ∧ IsDigit n c := by
  have hfilter : digit? radix c = (digit? 16 c).filter (· < radix) := by
    unfold digit?
    dsimp only
    rw [Option.filter_filter]
    congr 1
    funext value
    rw [← Bool.decide_and]
    exact decide_eq_decide.mpr ⟨fun hlt => ⟨by omega, hlt⟩, fun hlt => hlt.2⟩
  rw [hfilter, Option.filter_eq_some_iff, digit?_sixteen, decide_eq_true_eq]
  constructor
  · rintro ⟨⟨-, hdigit⟩, hn⟩
    exact ⟨hn, hdigit⟩
  · rintro ⟨hn, hdigit⟩
    exact ⟨⟨by omega, hdigit⟩, hn⟩

theorem isSome_mapM_digit?_iff {radix : ℕ} (h : radix ≤ 16) (s : List Char) :
    (s.mapM (digit? radix)).isSome ↔ ∀ c ∈ s, ∃ n < radix, IsDigit n c := by
  induction s with
  | nil => simp
  | cons c s ih =>
    have hc : (digit? radix c).isSome ↔ ∃ n < radix, IsDigit n c := by
      simp only [Option.isSome_iff_exists, digit?_eq_some_iff h]
    rw [List.forall_mem_cons, ← ih, ← hc, List.mapM_cons]
    cases digit? radix c <;> cases s.mapM (digit? radix) <;> simp

theorem radixValue_nil (radix : ℕ) : radixValue radix [] = 0 / 0 :=
  rfl

theorem isNaN_radixValue_iff {mark : Char} {radix : ℕ} {digits : List Char}
    (hmark : RadixMark mark radix) : (radixValue radix digits).isNaN = false ↔
      digits ≠ [] ∧ ∀ c ∈ digits, ∃ n < radix, IsDigit n c := by
  obtain ⟨b, hb, rfl⟩ := hmark.exists_bits
  have hradix : 2 ^ b ≤ 16 := Nat.pow_le_pow_right (by norm_num) hb
  rw [← isSome_mapM_digit?_iff hradix]
  by_cases hne : digits = []
  · subst hne
    exact iff_of_false (by rw [radixValue_nil]; decide) (by simp)
  · simp only [ne_eq, hne, not_false_eq_true, true_and]
    cases hds : digits.mapM (digit? (2 ^ b)) with
    | none =>
      have hnan : radixValue (2 ^ b) digits = 0 / 0 := by
        unfold radixValue
        rw [if_neg (by simpa using hne), hds]
      exact iff_of_false (by rw [hnan]; decide) (by simp)
    | some ds => exact iff_of_true (rounds_radixValue (by omega) hne hds).isNaN rfl

theorem decimal?_radix {mark : Char} {radix : ℕ} (digits : List Char)
    (hmark : RadixMark mark radix) : decimal? ('0' :: mark :: digits) = none := by
  induction hmark with
  | hexadecimal h => rcases h with rfl | rfl <;> rfl
  | octal h => rcases h with rfl | rfl <;> rfl
  | binary h => rcases h with rfl | rfl <;> rfl

/-- A text with a radix before its digits is no other literal. -/
theorem numericLiteral_radix_iff {mark : Char} {radix : ℕ} {digits : List Char}
    (hmark : RadixMark mark radix) : NumericLiteral ('0' :: mark :: digits) ↔
      digits ≠ [] ∧ ∀ c ∈ digits, ∃ n < radix, IsDigit n c := by
  constructor
  · intro h
    generalize hs : '0' :: mark :: digits = s at h
    induction h with
    | infinity hsign => induction hsign <;> simp at hs
    | decimal h =>
      rw [← decimal?_eq_some_iff, ← hs, decimal?_radix digits hmark] at h
      cases h
    | @radix mark' radix' digits' hmark' hne hdigits =>
      have hread := radix?_eq_some_iff.mpr ⟨mark, hmark, hs.symm⟩
      have hread' : radix? ('0' :: mark' :: digits') = some (radix', digits') :=
        radix?_eq_some_iff.mpr ⟨mark', hmark', rfl⟩
      rw [hread, Option.some.injEq, Prod.mk.injEq] at hread'
      obtain ⟨rfl, rfl⟩ := hread'
      exact ⟨hne, hdigits⟩
  · intro ⟨hne, hdigits⟩
    exact .radix hmark hne hdigits

section Convert

variable {text : String} {rest : List Char}

theorem stringToNumber_nil (h : Stripped [] text.toList) : stringToNumber text = 0 := by
  unfold stringToNumber
  rw [← h.eq_trimBlanks]
  rfl

theorem stringToNumber_radix {mark : Char} {radix : ℕ} {digits : List Char}
    (hmark : RadixMark mark radix) (h : Stripped ('0' :: mark :: digits) text.toList) :
    stringToNumber text = radixValue radix digits := by
  have hread : radix? ('0' :: mark :: digits) = some (radix, digits) :=
    radix?_eq_some_iff.mpr ⟨mark, hmark, rfl⟩
  unfold stringToNumber
  rw [← h.eq_trimBlanks]
  dsimp only
  rw [hread]
  rfl

theorem stringToNumber_infinity {sign : List Char} {negative : Bool}
    (hsign : SignText sign negative) (h : Stripped (sign ++ "Infinity".toList) text.toList) :
    stringToNumber text = if negative then -(1 / 0) else 1 / 0 := by
  unfold stringToNumber
  rw [← h.eq_trimBlanks]
  induction hsign <;> rfl

theorem stringToNumber_eq (hne : rest ≠ []) (hradix : radix? rest = none)
    (hinfinity : (sign rest).2 ≠ "Infinity".toList) (h : Stripped rest text.toList) :
    stringToNumber text = ((decimal? rest).map DecimalLiteral.toFloat).getD (0 / 0) := by
  unfold stringToNumber
  rw [← h.eq_trimBlanks]
  dsimp only
  rw [if_neg (by simpa using hne), hradix]
  dsimp only
  rw [if_neg hinfinity]
  cases decimal? rest <;> rfl

theorem DecimalText.ne_nil {d : DecimalLiteral} (h : DecimalText rest d) : rest ≠ [] := by
  rintro rfl
  rw [← decimal?_eq_some_iff] at h
  cases h

theorem DecimalText.radix? {d : DecimalLiteral} (h : DecimalText rest d) : radix? rest = none := by
  rw [Option.eq_none_iff_forall_ne_some]
  rintro ⟨radix, digits⟩ hread
  obtain ⟨mark, hmark, rfl⟩ := radix?_eq_some_iff.mp hread
  rw [← decimal?_eq_some_iff, decimal?_radix digits hmark] at h
  cases h

theorem DecimalText.sign_ne_infinity {d : DecimalLiteral} (h : DecimalText rest d) :
    (sign rest).2 ≠ "Infinity".toList := by
  intro hinfinity
  rw [← decimal?_eq_some_iff] at h
  unfold decimal? at h
  dsimp only at h
  rw [hinfinity] at h
  cases h

theorem stringToNumber_decimal {d : DecimalLiteral} (hd : DecimalText rest d)
    (h : Stripped rest text.toList) : stringToNumber text = d.toFloat := by
  rw [stringToNumber_eq hd.ne_nil hd.radix? hd.sign_ne_infinity h, decimal?_eq_some_iff.mpr hd]
  rfl

/-- What none of the readers takes is no literal. -/
theorem not_numericLiteral (hradix : radix? rest = none)
    (hinfinity : (sign rest).2 ≠ "Infinity".toList) (hdecimal : decimal? rest = none) :
    ¬ NumericLiteral rest := by
  intro h
  induction h with
  | infinity hsign =>
    have hhead : ∀ c ∈ "Infinity".toList.head?, c ≠ '+' ∧ c ≠ '-' := by
      intro c hc
      obtain rfl : 'I' = c := Option.some.inj hc
      decide
    rw [sign_append hsign hhead] at hinfinity
    exact hinfinity rfl
  | decimal h =>
    rw [decimal?_eq_some_iff.mpr h] at hdecimal
    cases hdecimal
  | @radix mark radix digits hmark =>
    have hread : Numeral.radix? ('0' :: mark :: digits) = some (radix, digits) :=
      radix?_eq_some_iff.mpr ⟨mark, hmark, rfl⟩
    rw [hread] at hradix
    cases hradix

theorem isNaN_stringToNumber_iff (h : Stripped rest text.toList) :
    (stringToNumber text).isNaN = false ↔ rest = [] ∨ NumericLiteral rest := by
  by_cases hne : rest = []
  · subst hne
    rw [stringToNumber_nil h]
    exact iff_of_true (by decide) (.inl rfl)
  · rw [or_iff_right hne]
    cases hradix : radix? rest with
    | some read =>
      obtain ⟨radix, digits⟩ := read
      obtain ⟨mark, hmark, rfl⟩ := radix?_eq_some_iff.mp hradix
      rw [stringToNumber_radix hmark h, isNaN_radixValue_iff hmark, numericLiteral_radix_iff hmark]
    | none =>
      obtain ⟨pre, hsign, hpre⟩ := signText_sign rest
      by_cases hinfinity : (sign rest).2 = "Infinity".toList
      · rw [hinfinity] at hpre
        generalize (sign rest).1 = negative at hsign
        subst hpre
        rw [stringToNumber_infinity hsign h]
        exact iff_of_true (by cases negative <;> decide) (.infinity hsign)
      · rw [stringToNumber_eq hne hradix hinfinity h]
        cases hd : decimal? rest with
        | some d => exact iff_of_true d.isNaN_toFloat (.decimal (decimal?_eq_some_iff.mp hd))
        | none => exact iff_of_false (by decide) (not_numericLiteral hradix hinfinity hd)

/-- A literal with a radix is converted into the double nearest to what is left of its number when the
digits past `2 ^ 53` are taken for zeros. That is the double nearest to the number itself, unless the
number comes to the middle between two doubles before a last digit that counts; it is so too where
`53` bits are enough. -/
theorem rounds_stringToNumber {mark : Char} {radix : ℕ} {digits : List Char} {ds : List ℕ}
    (hmark : RadixMark mark radix) (h : Stripped ('0' :: mark :: digits) text.toList)
    (hne : digits ≠ []) (hds : digits.mapM (digit? radix) = some ds) :
    Double.Rounds (kept radix 0 ds) (stringToNumber text) ∧
    ((∀ pre post, ds = pre ++ post → (∃ d ∈ post, d ≠ 0) →
      ∀ k, 2 * (denoted radix 0 pre : ℚ) ≠ Double.value k + Double.value (k + 1)) →
      Double.Rounds (denoted radix 0 ds) (stringToNumber text)) ∧
    ∀ m e, m < 2 ^ 53 → denoted radix 0 ds = m * 2 ^ e →
      Double.Rounds (denoted radix 0 ds) (stringToNumber text) := by
  rw [stringToNumber_radix hmark h]
  obtain ⟨b, hb, rfl⟩ := hmark.exists_bits
  have hb : b < 53 := by omega
  exact ⟨rounds_radixValue hb hne hds, rounds_denoted hb hne hds,
    fun _ _ => rounds_short hb hne hds⟩

/-- Digits that make the number too long are lost, unless they are zeros. -/
theorem rounds_stringToNumber_tie :
    Double.Rounds (2 ^ 57 + 16 : ℕ) (stringToNumber "0x200000000000011") ∧
    ¬ Double.Rounds 0x200000000000011 (stringToNumber "0x200000000000011") ∧
    Double.Rounds (255 * 2 ^ 60 : ℕ) (stringToNumber " 0xFF000000000000000") := by
  have hmark : RadixMark 'x' 16 := .hexadecimal (.inl rfl)
  have htie : Stripped ('0' :: 'x' :: "200000000000011".toList) "0x200000000000011".toList := by
    have h := stripped_trimBlanks "0x200000000000011".toList
    rwa [show trimBlanks "0x200000000000011".toList = '0' :: 'x' :: "200000000000011".toList by
      decide] at h
  have hlong : Stripped ('0' :: 'x' :: "FF000000000000000".toList) " 0xFF000000000000000".toList := by
    have h := stripped_trimBlanks " 0xFF000000000000000".toList
    rwa [show trimBlanks " 0xFF000000000000000".toList = '0' :: 'x' :: "FF000000000000000".toList by
      decide] at h
  have hds : "200000000000011".toList.mapM (digit? 16) =
      some [2, 0, 0, 0, 0, 0, 0, 0, 0, 0, 0, 0, 0, 1, 1] := by decide
  have hds' : "FF000000000000000".toList.mapM (digit? 16) =
      some [15, 15, 0, 0, 0, 0, 0, 0, 0, 0, 0, 0, 0, 0, 0, 0, 0] := by decide
  obtain ⟨hkept, -⟩ := rounds_stringToNumber hmark htie (by decide) hds
  obtain ⟨-, -, hshort⟩ := rounds_stringToNumber hmark hlong (by decide) hds'
  refine ⟨hkept, ?_, hshort 255 60 (by norm_num) (by decide)⟩
  rw [stringToNumber_radix hmark htie]
  exact not_rounds_tie

/-- Exactly the literals, and texts of blanks only, are converted into numbers. -/
theorem stringToNumber_literals (text : String) : ∃ rest, Stripped rest text.toList ∧
    (∀ other, Stripped other text.toList → other = rest) ∧
    ((stringToNumber text).isNaN = false ↔ rest = [] ∨ NumericLiteral rest) ∧
    (rest = [] → stringToNumber text = 0) ∧
    ∀ sign negative, SignText sign negative → rest = sign ++ "Infinity".toList →
      stringToNumber text = if negative then -(1 / 0) else 1 / 0 := by
  have hstripped := stripped_trimBlanks text.toList
  refine ⟨_, hstripped, fun other h => h.eq_trimBlanks, isNaN_stringToNumber_iff hstripped, ?_, ?_⟩
  · intro hnil
    rw [hnil] at hstripped
    exact stringToNumber_nil hstripped
  · intro sign negative hsign hrest
    rw [hrest] at hstripped
    exact stringToNumber_infinity hsign hstripped

example : stringToNumber " 5.\n" = 5 := by rfl

example : (stringToNumber "-0x1").isNaN := by decide

end Convert

end Numeral

end ScriptFold
