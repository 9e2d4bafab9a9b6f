import Sprawl.Lib.Cxx

/-!
# Searching and cutting a `std::string`

`find` is `std::string::find`, `none` for `npos`, and `substr` cuts as many characters as
there are, from a position that is not behind the end.  A text is mostly cut at the first
delimiter behind a position: `find_delim`, `find_no_delim`, `substr_between`, `substr_rest`.
-/

namespace Text

open Cxx

variable {α : Type} [DecidableEq α]

/-- `s.find(t, pos)` -/
def find (s t : List α) (pos : Nat) : Option Nat :=
  (List.range' pos (s.length + 1 - pos)).find? fun i => decide (t <+: s.drop i)

omit [DecidableEq α] in
/-- `s.substr(pos, n)` -/
def substr (s : List α) (pos n : Nat) : Except Stop (List α) :=
  if pos ≤ s.length then .ok ((s.drop pos).take n) else .error .exception

theorem find_eq_some {s t : List α} {pos i : Nat} :
    find s t pos = some i ↔
      (pos ≤ i ∧ i ≤ s.length) ∧ t <+: s.drop i ∧ ∀ j, pos ≤ j → j < i → ¬ t <+: s.drop j := by
  unfold find
  rw [List.find?_range'_eq_some]
  simp only [decide_eq_true_eq, List.mem_range'_1, Bool.not_eq_true', decide_eq_false_iff_not]
  constructor
  · rintro ⟨hi, hrange, hbefore⟩
    exact ⟨by omega, hi, hbefore⟩
  · rintro ⟨hrange, hi, hbefore⟩
    exact ⟨hi, by omega, hbefore⟩

theorem find_eq_none {s t : List α} {pos : Nat} :
    find s t pos = none ↔ ∀ i, pos ≤ i → i ≤ s.length → ¬ t <+: s.drop i := by
  unfold find
  rw [List.find?_range'_eq_none]
  simp only [Bool.not_eq_true', decide_eq_false_iff_not]
  constructor
  · intro h i hpos hi
    exact h i hpos (by omega)
  · intro h i hpos hi
    exact h i hpos (by omega)

section
omit [DecidableEq α]
variable {c : α} {s pre w post : List α}

theorem delim_prefix_iff {i : Nat} : [c] <+: s.drop i ↔ s[i]? = some c := by
  rw [← List.head?_drop]
  cases s.drop i with
  | nil => simp
  | cons d t =>
    rw [List.cons_prefix_cons, List.head?_cons, and_iff_left List.nil_prefix]
    exact ⟨fun h => congrArg some h.symm, fun h => (Option.some.inj h).symm⟩

/-- The delimiter is not in a field. -/
theorem getElem?_field (hw : c ∉ w) {j : Nat} (hpre : pre.length ≤ j)
    (hj : j < pre.length + w.length) : (pre ++ (w ++ post))[j]? ≠ some c := by
  rw [List.getElem?_append_right hpre, List.getElem?_append_left (by omega)]
  intro h
  exact hw (List.mem_of_getElem? h)

/-- A field between two positions. -/
theorem substr_between (pre w post : List α) :
    substr (pre ++ (w ++ post)) pre.length w.length = .ok w := by
  unfold substr
  rw [if_pos (by simp), List.drop_left, List.take_left]

/-- All that is behind a position. -/
theorem substr_rest (pre w : List α) {n : Nat} (hn : w.length ≤ n) :
    substr (pre ++ w) pre.length n = .ok w := by
  unfold substr
  rw [if_pos (by simp), List.drop_left, List.take_of_length_le hn]

end

/-- The first delimiter behind a position. -/
theorem find_delim {c : α} {pre w post : List α} (hw : c ∉ w) :
    find (pre ++ (w ++ c :: post)) [c] pre.length = some (pre.length + w.length) := by
  rw [find_eq_some]
  refine ⟨⟨Nat.le_add_right _ _, by simp⟩, ?_, fun j hpre hj => ?_⟩
  · rw [delim_prefix_iff, ← List.append_assoc, ← List.length_append]
    simp
  · rw [delim_prefix_iff]
    exact getElem?_field hw hpre hj

theorem find_no_delim {c : α} {pre w : List α} (hw : c ∉ w) :
    find (pre ++ w) [c] pre.length = none := by
  rw [find_eq_none]
  intro i hpre _
  rw [delim_prefix_iff, List.getElem?_append_right hpre]
  intro h
  exact hw (List.mem_of_getElem? h)

/-- The text in front of the first delimiter and behind it. -/
theorem find_delim_eq_some {c : α} {s : List α} {i : Nat} (h : find s [c] 0 = some i) :
    ∃ pre post, s = pre ++ c :: post ∧ c ∉ pre ∧ i = pre.length := by
  obtain ⟨-, hprefix, hbefore⟩ := find_eq_some.1 h
  have hc : s[i]? = some c := delim_prefix_iff.1 hprefix
  obtain ⟨hi, hget⟩ := List.getElem?_eq_some_iff.1 hc
  refine ⟨s.take i, s.drop (i + 1), ?_, ?_, ?_⟩
  · rw [← hget, List.cons_getElem_drop_succ, List.take_append_drop]
  · intro hmem
    obtain ⟨j, hj, hjc⟩ := List.mem_take_iff_getElem.1 hmem
    have hlt : j < i := by omega
    apply hbefore j (Nat.zero_le j) hlt
    rw [delim_prefix_iff, List.getElem?_eq_getElem (by omega), hjc]
  · rw [List.length_take]
    omega

/-- A search from the start succeeds for the texts that occur. -/
theorem exists_find_iff {s t : List α} : (∃ i, find s t 0 = some i) ↔ t <:+: s := by
  constructor
  · rintro ⟨i, h⟩
    exact (find_eq_some.1 h).2.1.isInfix.trans (List.drop_suffix i s).isInfix
  · rintro ⟨pre, post, rfl⟩
    cases hfind : find (pre ++ t ++ post) t 0 with
    | some i => exact ⟨i, rfl⟩
    | none =>
      have hno := find_eq_none.1 hfind pre.length (Nat.zero_le _) (by simp)
      rw [List.append_assoc, List.drop_left] at hno
      exact absurd (List.prefix_append t post) hno

end Text
