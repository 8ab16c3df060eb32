/-!
Finite vocabularies: types whose members each have one fixed spelling, such as operators and
node kinds. Main statement: reading a spelling gives back the member it was taken from.
-/

namespace ScriptFold

/-- A type listed in `all`, each of whose members is written as `spelling` says. -/
class Vocabulary (α : Type) where
  all : List α
  spelling : α → String

def spell {α : Type} [Vocabulary α] (a : α) : String :=
  Vocabulary.spelling a

def unspell? (α : Type) [Vocabulary α] (text : String) : Option α :=
  (Vocabulary.all : List α).find? fun a => spell a == text

/-- A vocabulary is lawful when `all` misses nobody and no two members share a spelling. -/
class LawfulVocabulary (α : Type) [Vocabulary α] : Prop where
  mem_all : ∀ a : α, a ∈ (Vocabulary.all : List α)
  distinct : ((Vocabulary.all : List α).map spell).Nodup

theorem find?_spell {α : Type} [Vocabulary α] {l : List α} {a : α} (mem : a ∈ l)
    (distinct : (l.map spell).Nodup) : l.find? (fun b => spell b == spell a) = some a := by
  induction l with
  | nil => simp at mem
  | cons b l ih =>
    simp only [List.map_cons, List.nodup_cons, List.mem_map, not_exists, not_and] at distinct
    rcases List.mem_cons.mp mem with rfl | tail
    · simp
    · have : ¬ spell b = spell a := fun same => distinct.1 a tail same.symm
      simp [this, ih tail distinct.2]

theorem unspell?_spell {α : Type} [Vocabulary α] [LawfulVocabulary α] (a : α) :
    unspell? α (spell a) = some a :=
  find?_spell (LawfulVocabulary.mem_all a) LawfulVocabulary.distinct

end ScriptFold
