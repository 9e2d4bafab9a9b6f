import Mathlib.InformationTheory.Coding.UniquelyDecodable
import Sprawl.Lib.LittleEndian

/-!
# Records that carry their length

A record is a number of `j` bytes, the length of a text in `k` bytes and the text.  Records
stand one behind the other with nothing between them, and the text may have any bytes; still
no record is the beginning of another (`record_append_inj`), so what is written can be taken
apart in one way only (`records_decodable`).
-/

namespace Records

open InformationTheory LittleEndian

/-- A code none of whose words begins another one. -/
theorem decodable_of_prefixFree {α : Type*} {S : Set (List α)} (hnil : [] ∉ S)
    (hfree : ∀ v ∈ S, ∀ w ∈ S, ∀ r r' : List α, v ++ r = w ++ r' → v = w) :
    UniquelyDecodable S := by
  intro vs
  induction vs with
  | nil =>
    intro ws _ hws h
    cases ws with
    | nil => rfl
    | cons w ws =>
      obtain ⟨hw, -⟩ := List.forall_mem_cons.1 hws
      obtain ⟨rfl, -⟩ := List.append_eq_nil_iff.1 (List.flatten_cons ▸ h.symm)
      exact absurd hw hnil
  | cons v vs ih =>
    intro ws hvs hws h
    obtain ⟨hv, hvs⟩ := List.forall_mem_cons.1 hvs
    cases ws with
    | nil =>
      obtain ⟨rfl, -⟩ := List.append_eq_nil_iff.1 (List.flatten_cons ▸ h)
      exact absurd hv hnil
    | cons w ws =>
      obtain ⟨hw, hrest⟩ := List.forall_mem_cons.1 hws
      rw [List.flatten_cons, List.flatten_cons] at h
      have heq : v = w := hfree v hv w hw _ _ h
      rw [heq] at h ⊢
      rw [ih ws hvs hrest (List.append_cancel_left h)]

variable {j k : Nat}

def record (j k n : Nat) (text : List UInt8) : List UInt8 :=
  toBytes j n ++ toBytes k text.length ++ text

/-- The records whose number and whose length fit. -/
def records (j k : Nat) : Set (List UInt8) :=
  { w | ∃ n text, n < 256 ^ j ∧ text.length < 256 ^ k ∧ w = record j k n text }

theorem record_append_inj {n n' : Nat} {text text' r r' : List UInt8} (hn : n < 256 ^ j)
    (hn' : n' < 256 ^ j) (htext : text.length < 256 ^ k) (htext' : text'.length < 256 ^ k)
    (h : record j k n text ++ r = record j k n' text' ++ r') :
    n = n' ∧ text = text' ∧ r = r' := by
  unfold record at h
  simp only [List.append_assoc] at h
  obtain ⟨hnumber, h⟩ := List.append_inj h (by rw [length_toBytes, length_toBytes])
  obtain ⟨hlength, h⟩ := List.append_inj h (by rw [length_toBytes, length_toBytes])
  have hsize : text.length = text'.length := toBytes_inj htext htext' hlength
  obtain ⟨hsame, hrest⟩ := List.append_inj h hsize
  exact ⟨toBytes_inj hn hn' hnumber, hsame, hrest⟩

/-- **What is written in records can be taken apart in one way only.** -/
theorem records_decodable (hj : 0 < j) : UniquelyDecodable (records j k) := by
  apply decodable_of_prefixFree
  · rintro ⟨n, text, -, -, hnil⟩
    have hlen := congrArg List.length hnil
    simp only [record, List.length_append, length_toBytes, List.length_nil] at hlen
    omega
  · rintro v ⟨n, text, hn, htext, rfl⟩ w ⟨n', text', hn', htext', rfl⟩ r r' h
    obtain ⟨rfl, rfl, -⟩ := record_append_inj hn hn' htext htext' h
    rfl

end Records
