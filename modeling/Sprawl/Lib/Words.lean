import Sprawl.Lib.Cxx
import Sprawl.Lib.Fields

/-!
# The words of a text

`words` cuts a text at its blanks: they are its `fields`.  `Spaced s ws` says the same from
the other side: `s` is the words `ws` with at least one blank between two of them and any
number in front and behind.  Every text is spaced in one way, and `words` finds it
(`words_eq_iff`).
-/

namespace Cxx

open Fields

/-- What `stream >> s` can give: not empty, and without a blank. -/
def IsWord (w : List Char) : Prop := w ≠ [] ∧ ∀ c ∈ w, isSpace c = false

/-- The text has these words, with blanks between them. -/
inductive Spaced : List Char → List (List Char) → Prop
  | nil : Spaced [] []
  | blank {c : Char} {s : List Char} {ws : List (List Char)} :
      isSpace c = true → Spaced s ws → Spaced (c :: s) ws
  | last {w : List Char} : IsWord w → Spaced w [w]
  | word {w : List Char} {c : Char} {s : List Char} {ws : List (List Char)} :
      IsWord w → isSpace c = true → Spaced s ws → Spaced (w ++ c :: s) (w :: ws)

theorem words_eq_fields (s : List Char) : words s = fields isSpace s := rfl

theorem spaced_iff {s : List Char} {ws : List (List Char)} :
    Spaced s ws ↔ Separated isSpace s ws := by
  constructor
  · intro h
    induction h with
    | nil => exact .nil
    | blank hc _ ih => exact .sep hc ih
    | last hw => exact .last hw
    | word hw hc _ ih => exact .field hw hc ih
  · intro h
    induction h with
    | nil => exact .nil
    | sep hc _ ih => exact .blank hc ih
    | last hw => exact .last hw
    | field hw hc _ ih => exact .word hw hc ih

/-- **The words of a text are the words it is spaced in.** -/
theorem words_eq_iff {s : List Char} {ws : List (List Char)} : words s = ws ↔ Spaced s ws := by
  rw [words_eq_fields, fields_eq_iff, spaced_iff]

/-- Every text is its words with blanks between them. -/
theorem spaced_words (s : List Char) : Spaced s (words s) := words_eq_iff.1 rfl

theorem Spaced.isWord {s : List Char} {ws : List (List Char)} (h : Spaced s ws) :
    ∀ w ∈ ws, IsWord w := by
  induction h with
  | nil => exact fun w hw => absurd hw List.not_mem_nil
  | blank _ _ ih => exact ih
  | last hw => exact List.forall_mem_singleton.2 hw
  | word hw _ _ ih => exact List.forall_mem_cons.2 ⟨hw, ih⟩

/-- Words with one blank between them. -/
theorem spaced_intercalate {ws : List (List Char)} (h : ∀ w ∈ ws, IsWord w) :
    Spaced ([' '].intercalate ws) ws := by
  induction ws with
  | nil => exact .nil
  | cons w ws ih =>
    obtain ⟨hw, hws⟩ := List.forall_mem_cons.1 h
    cases ws with
    | nil =>
      rw [List.intercalate_singleton]
      exact .last hw
    | cons v vs =>
      rw [List.intercalate_cons_cons, List.append_assoc]
      exact .word hw rfl (ih hws)

end Cxx
