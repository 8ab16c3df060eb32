import Mathlib
import ScriptFold.Text.Blank

/-!
Blanks around a text. Main statement: trimming drops exactly the white space and the line
terminators of ECMAScript at both ends, and what it leaves is the only text that is left so.
-/

namespace ScriptFold

/-- The characters that ECMAScript counts as white space, by their codes. -/
def whiteSpace : List ℕ :=
  [0x9, 0xB, 0xC, 0x20, 0xA0, 0x1680, 0x2000, 0x2001, 0x2002, 0x2003, 0x2004, 0x2005, 0x2006,
    0x2007, 0x2008, 0x2009, 0x200A, 0x202F, 0x205F, 0x3000, 0xFEFF]

/-- The characters that end a line. -/
def lineTerminators : List ℕ :=
  [0xA, 0xD, 0x2028, 0x2029]

def Blank (c : Char) : Prop :=
  c.toNat ∈ whiteSpace ∨ c.toNat ∈ lineTerminators

theorem isBlank_iff (c : Char) : isBlank c ↔ Blank c := by
  unfold isBlank Blank whiteSpace lineTerminators
  simp only [Bool.or_eq_true, Bool.and_eq_true, decide_eq_true_eq, beq_iff_eq, List.mem_cons,
    List.not_mem_nil, or_false]
  omega

/-- What is left of a text without the blanks at both ends. -/
structure Stripped (rest text : List Char) : Prop where
  split : ∃ pre post, text = pre ++ rest ++ post ∧ (∀ c ∈ pre, Blank c) ∧ ∀ c ∈ post, Blank c
  head : ∀ c ∈ rest.head?, ¬ Blank c
  last : ∀ c ∈ rest.getLast?, ¬ Blank c

theorem blanks_takeWhile (s : List Char) : ∀ c ∈ s.takeWhile isBlank, Blank c :=
  fun c hc => (isBlank_iff c).mp (List.mem_takeWhile_imp hc)

theorem not_blank_head_dropWhile (s : List Char) :
    ∀ c ∈ (s.dropWhile isBlank).head?, ¬ Blank c := by
  intro c hc hblank
  have hnot := List.head?_dropWhile_not isBlank s
  rw [Option.mem_def.mp hc] at hnot
  simp [(isBlank_iff c).mpr hblank] at hnot

theorem stripped_trimBlanks (text : List Char) : Stripped (trimBlanks text) text := by
  have htext := (List.takeWhile_append_dropWhile (p := isBlank) (l := text)).symm
  have hhead := not_blank_head_dropWhile text
  unfold trimBlanks
  generalize text.dropWhile isBlank = tail at *
  have htail := (List.takeWhile_append_dropWhile (p := isBlank) (l := tail.reverse)).symm
  have hlast := not_blank_head_dropWhile tail.reverse
  have hpost := blanks_takeWhile tail.reverse
  generalize tail.reverse.dropWhile isBlank = core at *
  generalize tail.reverse.takeWhile isBlank = post at *
  have htail : tail = core.reverse ++ post.reverse := by
    rw [← List.reverse_append, ← htail, List.reverse_reverse]
  constructor
  · refine ⟨_, post.reverse, ?_, blanks_takeWhile text, by simpa using hpost⟩
    rw [List.append_assoc, ← htail]
    exact htext
  · intro c hc
    refine hhead c ?_
    rw [htail]
    exact List.mem_head?_append_of_mem_head? hc
  · intro c hc
    rw [List.getLast?_reverse] at hc
    exact hlast c hc

theorem dropWhile_append_blanks {pre rest : List Char} (h : ∀ c ∈ pre, Blank c)
    (hrest : ∀ c ∈ rest.head?, ¬ Blank c) : (pre ++ rest).dropWhile isBlank = rest := by
  rw [List.dropWhile_append_of_pos fun c hc => (isBlank_iff c).mpr (h c hc)]
  cases rest with
  | nil => rfl
  | cons c rest => exact List.dropWhile_cons_of_neg fun hc => hrest c rfl ((isBlank_iff c).mp hc)

theorem Stripped.eq_trimBlanks {rest text : List Char} (h : Stripped rest text) :
    rest = trimBlanks text := by
  obtain ⟨⟨pre, post, rfl, hpre, hpost⟩, hhead, hlast⟩ := h
  unfold trimBlanks
  by_cases hempty : rest = []
  · subst hempty
    have hall : ∀ c ∈ pre ++ [] ++ post, isBlank c := by
      intro c hc
      rw [List.append_nil, List.mem_append] at hc
      exact (isBlank_iff c).mpr (hc.elim (hpre c) (hpost c))
    rw [List.dropWhile_eq_nil_iff.mpr hall]
    rfl
  · have hfirst : ∀ c ∈ (rest ++ post).head?, ¬ Blank c := by
      rwa [List.head?_append_of_ne_nil rest hempty]
    rw [List.append_assoc, dropWhile_append_blanks hpre hfirst, List.reverse_append,
      dropWhile_append_blanks, List.reverse_reverse]
    · simpa using hpost
    · rwa [List.head?_reverse]

end ScriptFold
