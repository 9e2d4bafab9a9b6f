import Mathlib.Computability.RegularExpressions

/-!
# Regular expressions in the shape programs write them

Mathlib's `RegularExpression` has letters, sums, products and stars.  Here are
the forms a program uses on top of these: a class of letters (`oneOf`), a fixed
word (`word`), a choice of words (`anyWord`), `r+` (`some1`) and `r?` (`opt`),
each with the words it matches.  `fullMatch` is the whole-text match, decided by
derivatives.
-/

namespace RegExp

open RegularExpression

variable {α : Type*}

/-- `[abc]`: one letter of `cs`. -/
def oneOf (cs : List α) : RegularExpression α := cs.foldr (fun c r => char c + r) 0

/-- The fixed word `w`. -/
def word (w : List α) : RegularExpression α := w.foldr (fun c r => char c * r) 1

/-- `(w₁|w₂|…)`. -/
def anyWord (ws : List (List α)) : RegularExpression α := ws.foldr (fun w r => word w + r) 0

/-- `r+`. -/
def some1 (r : RegularExpression α) : RegularExpression α := r * star r

/-- `r?`. -/
def opt (r : RegularExpression α) : RegularExpression α := 1 + r

/-- The whole text matches. -/
def fullMatch [DecidableEq α] (r : RegularExpression α) (s : List α) : Bool := r.rmatch s

theorem fullMatch_iff [DecidableEq α] (r : RegularExpression α) (s : List α) :
    fullMatch r s = true ↔ s ∈ r.matches' := rmatch_iff_matches' r s

theorem mem_add (r r' : RegularExpression α) (s : List α) :
    s ∈ (r + r').matches' ↔ s ∈ r.matches' ∨ s ∈ r'.matches' := by
  rw [matches'_add, Language.mem_add]

theorem mem_mul (r r' : RegularExpression α) (s : List α) :
    s ∈ (r * r').matches' ↔ ∃ a b, s = a ++ b ∧ a ∈ r.matches' ∧ b ∈ r'.matches' := by
  rw [matches'_mul, Language.mem_mul]
  constructor
  · rintro ⟨a, ha, b, hb, rfl⟩
    exact ⟨a, b, rfl, ha, hb⟩
  · rintro ⟨a, b, rfl, ha, hb⟩
    exact ⟨a, ha, b, hb, rfl⟩

theorem mem_char (c : α) (s : List α) : s ∈ (char c).matches' ↔ s = [c] := by
  rw [matches'_char]; exact Set.mem_singleton_iff

theorem mem_one (s : List α) : s ∈ (1 : RegularExpression α).matches' ↔ s = [] := by
  rw [matches'_epsilon, Language.mem_one]

/-- A letter, then the rest. -/
theorem mem_char_mul (c : α) (r : RegularExpression α) (s : List α) :
    s ∈ (char c * r).matches' ↔ ∃ b, s = c :: b ∧ b ∈ r.matches' := by
  rw [mem_mul]
  constructor
  · rintro ⟨a, b, rfl, ha, hb⟩
    rw [mem_char] at ha
    exact ⟨b, by rw [ha]; rfl, hb⟩
  · rintro ⟨b, rfl, hb⟩
    exact ⟨[c], b, rfl, (mem_char c _).2 rfl, hb⟩

theorem mem_oneOf (cs s : List α) : s ∈ (oneOf cs).matches' ↔ ∃ c ∈ cs, s = [c] := by
  induction cs with
  | nil => simp [oneOf]
  | cons c cs ih =>
    show s ∈ (char c + oneOf cs).matches' ↔ _
    rw [mem_add, mem_char, ih]
    simp

/-- A letter of the class, then the rest. -/
theorem mem_oneOf_mul (cs : List α) (r : RegularExpression α) (s : List α) :
    s ∈ (oneOf cs * r).matches' ↔ ∃ c b, s = c :: b ∧ c ∈ cs ∧ b ∈ r.matches' := by
  rw [mem_mul]
  constructor
  · rintro ⟨a, b, rfl, ha, hb⟩
    obtain ⟨c, hc, rfl⟩ := (mem_oneOf _ _).1 ha
    exact ⟨c, b, rfl, hc, hb⟩
  · rintro ⟨c, b, rfl, hc, hb⟩
    exact ⟨[c], b, rfl, (mem_oneOf _ _).2 ⟨c, hc, rfl⟩, hb⟩

theorem mem_word (w s : List α) : s ∈ (word w).matches' ↔ s = w := by
  induction w generalizing s with
  | nil => exact mem_one s
  | cons c w ih =>
    show s ∈ (char c * word w).matches' ↔ _
    rw [mem_char_mul]
    simp [ih]

theorem mem_anyWord (ws : List (List α)) (s : List α) : s ∈ (anyWord ws).matches' ↔ s ∈ ws := by
  induction ws with
  | nil => simp [anyWord]
  | cons w ws ih =>
    show s ∈ (word w + anyWord ws).matches' ↔ _
    rw [mem_add, mem_word, ih, List.mem_cons]

/-- `[abc]*` matches the words over the class. -/
theorem mem_star_oneOf (cs s : List α) : s ∈ (star (oneOf cs)).matches' ↔ ∀ c ∈ s, c ∈ cs := by
  rw [matches'_star, Language.mem_kstar]
  constructor
  · rintro ⟨L, rfl, hL⟩ c hc
    obtain ⟨w, hw, hcw⟩ := List.mem_flatten.1 hc
    obtain ⟨d, hd, rfl⟩ := (mem_oneOf cs w).1 (hL w hw)
    rw [List.mem_singleton.1 hcw]
    exact hd
  · intro h
    refine ⟨s.map fun c => [c], ?_, ?_⟩
    · induction s with
      | nil => rfl
      | cons c s ih =>
        rw [List.map_cons, List.flatten_cons, ← ih fun d hd => h d (List.mem_cons_of_mem _ hd)]
        rfl
    · intro w hw
      obtain ⟨c, hc, rfl⟩ := List.mem_map.1 hw
      exact (mem_oneOf cs _).2 ⟨c, h c hc, rfl⟩

/-- `[abc]+` matches the non-empty words over the class. -/
theorem mem_some1_oneOf (cs s : List α) :
    s ∈ (some1 (oneOf cs)).matches' ↔ s ≠ [] ∧ ∀ c ∈ s, c ∈ cs := by
  rw [some1, mem_oneOf_mul]
  constructor
  · rintro ⟨c, b, rfl, hc, hb⟩
    rw [mem_star_oneOf] at hb
    refine ⟨by simp, fun d hd => ?_⟩
    rcases List.mem_cons.1 hd with rfl | hd
    · exact hc
    · exact hb d hd
  · rintro ⟨hne, h⟩
    cases s with
    | nil => exact absurd rfl hne
    | cons c b =>
      refine ⟨c, b, rfl, h c List.mem_cons_self, (mem_star_oneOf _ _).2 fun d hd => ?_⟩
      exact h d (List.mem_cons_of_mem _ hd)

end RegExp
