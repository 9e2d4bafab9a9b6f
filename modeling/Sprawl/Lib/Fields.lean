import Mathlib.Data.List.TakeWhile
import Mathlib.Tactic.Common

/-!
# The fields of a list

`fields p xs` cuts a list at its separators, the elements with `p`: the maximal runs of
other elements, in order.  `Separated p xs ws` says the same from the other side: `xs` is
the fields `ws` with at least one separator between two of them and any number in front
and behind.  Every list is separated in one way, and `fields` finds it
(`fields_eq_iff`).
-/

namespace Fields

variable {α : Type*} {p : α → Bool}

/-- The maximal runs of elements that are no separators. -/
def fields (p : α → Bool) (xs : List α) : List (List α) :=
  (xs.splitOnP p).filter fun w => !w.isEmpty

/-- Not empty, and without a separator. -/
def IsField (p : α → Bool) (w : List α) : Prop := w ≠ [] ∧ ∀ x ∈ w, p x = false

/-- The list has these fields, with separators between them. -/
inductive Separated (p : α → Bool) : List α → List (List α) → Prop
  | nil : Separated p [] []
  | sep {x : α} {s : List α} {ws : List (List α)} :
      p x = true → Separated p s ws → Separated p (x :: s) ws
  | last {w : List α} : IsField p w → Separated p w [w]
  | field {w : List α} {x : α} {s : List α} {ws : List (List α)} :
      IsField p w → p x = true → Separated p s ws → Separated p (w ++ x :: s) (w :: ws)

theorem fields_nil : fields p [] = [] := by simp [fields]

theorem fields_sep {x : α} (h : p x = true) (s : List α) : fields p (x :: s) = fields p s := by
  unfold fields
  rw [List.splitOnP_cons_eq_if_modifyHead, if_pos h]
  rfl

theorem fields_seps {seps : List α} (h : ∀ x ∈ seps, p x = true) (s : List α) :
    fields p (seps ++ s) = fields p s := by
  induction seps with
  | nil => rfl
  | cons x seps ih =>
    rw [List.cons_append, fields_sep (h x List.mem_cons_self),
      ih fun y hy => h y (List.mem_cons_of_mem _ hy)]

theorem fields_last {w : List α} (h : IsField p w) : fields p w = [w] := by
  have hne : (!w.isEmpty) = true := by simp [h.1]
  unfold fields
  rw [List.splitOnP_eq_singleton h.2, List.filter_cons, if_pos hne, List.filter_nil]

theorem fields_field {w : List α} {x : α} (hw : IsField p w) (hx : p x = true) (s : List α) :
    fields p (w ++ x :: s) = w :: fields p s := by
  have hne : (!w.isEmpty) = true := by simp [hw.1]
  unfold fields
  rw [List.splitOnP_append_cons_of_forall_mem hw.2 x hx, List.filter_cons, if_pos hne]

/-- The field in front, up to the first separator. -/
theorem exists_field {x : α} {s : List α} (h : p x = false) :
    ∃ w rest, x :: s = w ++ rest ∧ IsField p w ∧
      (rest = [] ∨ ∃ y t, rest = y :: t ∧ p y = true) := by
  refine ⟨(x :: s).takeWhile fun y => !p y, (x :: s).dropWhile fun y => !p y,
    List.takeWhile_append_dropWhile.symm, ⟨?_, fun y hy => ?_⟩, ?_⟩
  · rw [List.takeWhile_cons_of_pos (by simpa using h)]
    exact List.cons_ne_nil _ _
  · simpa using List.mem_takeWhile_imp hy
  · cases hrest : (x :: s).dropWhile fun y => !p y with
    | nil => exact .inl rfl
    | cons y t =>
      have hnot := @List.head_dropWhile_not _ (fun y => !p y) (x :: s)
        (by rw [hrest]; exact List.cons_ne_nil _ _)
      simp only [hrest, List.head_cons] at hnot
      exact .inr ⟨y, t, rfl, by simpa using hnot⟩

/-- The front of a list: its separators, and the first field behind them, if there is one. -/
theorem exists_front (p : α → Bool) (xs : List α) :
    ∃ seps s, xs = seps ++ s ∧ (∀ x ∈ seps, p x = true) ∧
      (s = [] ∨ ∃ w rest, s = w ++ rest ∧ IsField p w ∧
        (rest = [] ∨ ∃ y t, rest = y :: t ∧ p y = true)) := by
  induction xs with
  | nil => exact ⟨[], [], rfl, by simp, .inl rfl⟩
  | cons x xs ih =>
    by_cases hx : p x = true
    · obtain ⟨seps, s, rfl, hseps, hs⟩ := ih
      refine ⟨x :: seps, s, rfl, ?_, hs⟩
      intro y hy
      rcases List.mem_cons.1 hy with rfl | hy
      · exact hx
      · exact hseps y hy
    · exact ⟨[], x :: xs, rfl, by simp, .inr (exists_field (Bool.eq_false_iff.2 hx))⟩

/-- **Induction over the fields of a list.** -/
theorem field_induction {P : List α → Prop} (nil : P [])
    (sep : ∀ x s, p x = true → P s → P (x :: s)) (last : ∀ w, IsField p w → P w)
    (field : ∀ w x s, IsField p w → p x = true → P s → P (w ++ x :: s)) : ∀ xs, P xs := by
  intro xs
  induction hlen : xs.length using Nat.strongRecOn generalizing xs with
  | ind n ih =>
    cases xs with
    | nil => exact nil
    | cons x s =>
      rw [List.length_cons] at hlen
      by_cases hx : p x = true
      · exact sep x s hx (ih s.length (by omega) s rfl)
      · obtain ⟨w, rest, hsplit, hw, rfl | ⟨y, t, rfl, hy⟩⟩ :=
          exists_field (s := s) (Bool.eq_false_iff.2 hx)
        · rw [hsplit, List.append_nil]
          exact last w hw
        · have hlength := congrArg List.length hsplit
          rw [List.length_cons, List.length_append, List.length_cons] at hlength
          rw [hsplit]
          exact field w y t hw hy (ih t.length (by omega) t rfl)

/-- Every list is its fields with separators between them. -/
theorem separated_fields (xs : List α) : Separated p xs (fields p xs) := by
  induction xs using @field_induction _ p with
  | nil => exact .nil
  | sep x s hx ih =>
    rw [fields_sep hx]
    exact .sep hx ih
  | last w hw =>
    rw [fields_last hw]
    exact .last hw
  | field w x s hw hx ih =>
    rw [fields_field hw hx]
    exact .field hw hx ih

/-- **The fields of a list are those it is separated in.** -/
theorem fields_eq_iff {xs : List α} {ws : List (List α)} :
    fields p xs = ws ↔ Separated p xs ws := by
  constructor
  · rintro rfl
    exact separated_fields xs
  · intro h
    induction h with
    | nil => exact fields_nil
    | sep hx _ ih => rw [fields_sep hx, ih]
    | last hw => exact fields_last hw
    | field hw hx _ ih => rw [fields_field hw hx, ih]

/-- What is in a field is in the list. -/
theorem mem_of_mem_fields {xs w : List α} {x : α} (hw : w ∈ fields p xs) (hx : x ∈ w) : x ∈ xs := by
  have h := separated_fields (p := p) xs
  generalize fields p xs = ws at h hw
  induction h with
  | nil => cases hw
  | sep _ _ ih => exact List.mem_cons_of_mem _ (ih hw)
  | last _ =>
    rw [List.mem_singleton.1 hw] at hx
    exact hx
  | field _ _ _ ih =>
    rcases List.mem_cons.1 hw with rfl | hw
    · exact List.mem_append_left _ hx
    · exact List.mem_append_right _ (List.mem_cons_of_mem _ (ih hw))

/-- What is no separator is in a field. -/
theorem exists_mem_fields {xs : List α} {x : α} (hx : x ∈ xs) (hp : p x = false) :
    ∃ w ∈ fields p xs, x ∈ w := by
  have h := separated_fields (p := p) xs
  generalize fields p xs = ws at h
  induction h with
  | nil => cases hx
  | sep hsep _ ih =>
    rcases List.mem_cons.1 hx with rfl | hx
    · rw [hsep] at hp
      cases hp
    · exact ih hx
  | last _ => exact ⟨_, List.mem_cons_self, hx⟩
  | field _ hsep _ ih =>
    rcases List.mem_append.1 hx with hx | hx
    · exact ⟨_, List.mem_cons_self, hx⟩
    · rcases List.mem_cons.1 hx with rfl | hx
      · rw [hsep] at hp
        cases hp
      · obtain ⟨w, hw, hxw⟩ := ih hx
        exact ⟨w, List.mem_cons_of_mem _ hw, hxw⟩

end Fields
