import Sprawl.Lib.CString

/-!
# The growing buffer (`pshy/dynbuf.c`)

`add` doubles the block one character before it is full and zeroes what is behind the next
character; the zero in front of that was written before.  Behind every sequence of `add`
and `clear` the buffer `Holds` what was added since the last `clear`, with zeroes up to its
capacity (`run_holds`); where the allocator refuses a larger block, the program is aborted.
-/

namespace Pshy

open Cxx Cstring

/-- `struct pshy_buff` -/
structure Buff where
  len : UInt64
  cap : UInt64
  data : Block Char
deriving DecidableEq

/-- `pshy_buff_create()` -/
def buffCreate : Buff := { len := 0, cap := 64, data := calloc 64 nul }

/-- The branch of `pshy_buff_add` that makes room. -/
def buffGrow (alloc : Allocator) (buff : Buff) : Except Stop Buff :=
  let cap := buff.cap <<< 1
  match alloc.realloc 1 buff.data cap.toNat with
  | none => .error .abort
  | some data => do
    let data ← memset data (buff.len + 1).toNat nul (cap - buff.len - 1).toNat
    return { buff with cap, data }

/-- `pshy_buff_add(buff, c)` -/
def buffAdd (alloc : Allocator) (buff : Buff) (c : Char) : Except Stop Buff := do
  let buff ← if buff.len + 1 ≥ buff.cap then buffGrow alloc buff else .ok buff
  let data ← store buff.data buff.len.toNat c
  return { buff with data, len := buff.len + 1 }

/-- `pshy_buff_clear(buff)` -/
def buffClear (buff : Buff) : Except Stop Buff := do
  let data ← memset buff.data 0 nul buff.cap.toNat
  return { buff with data, len := 0 }

/-! ## Runs -/

inductive Op
  | add (c : Char)
  | clear
deriving DecidableEq

def step (alloc : Allocator) (buff : Buff) : Op → Except Stop Buff
  | .add c => buffAdd alloc buff c
  | .clear => buffClear buff

/-- The buffer behind calls on a fresh one. -/
def run (alloc : Allocator) (ops : List Op) : Except Stop Buff :=
  ops.foldlM (step alloc) buffCreate

/-- The characters added since the last `clear`. -/
def added (ops : List Op) : List Char :=
  ops.foldl (fun cs op => match op with
    | .add c => cs ++ [c]
    | .clear => []) []

/-- The buffer is a copy of `cs` with zeroes behind it. -/
structure Holds (buff : Buff) (cs : List Char) : Prop where
  len : buff.len.toNat = cs.length
  len_lt_cap : buff.len < buff.cap
  length_data : buff.data.length = buff.cap.toNat
  content : buff.data.take cs.length = cs.map some
  zeroes : ∀ i, buff.len.toNat ≤ i → i < buff.cap.toNat → buff.data[i]? = some (some nul)

/-- In some call of the run the allocator has no block of twice the capacity. -/
def Refused (alloc : Allocator) (ops : List Op) : Prop :=
  ∃ pre buff c, pre ++ [.add c] <+: ops ∧ run alloc pre = .ok buff ∧
    alloc.gives (2 * buff.cap.toNat) = false

/-! ## One call -/

/-- `Holds` in one equation: the characters and the zeroes. -/
theorem holds_iff {buff : Buff} {cs : List Char} : Holds buff cs ↔
    buff.len.toNat = cs.length ∧ cs.length < buff.cap.toNat ∧
      buff.data = cs.map some ++ List.replicate (buff.cap.toNat - cs.length) (some nul) := by
  constructor
  · rintro ⟨hlen, hlt, hdata, hcontent, hzeroes⟩
    have hlt' : cs.length < buff.cap.toNat := by
      rw [← hlen]
      exact UInt64.lt_iff_toNat_lt.1 hlt
    refine ⟨hlen, hlt', ?_⟩
    rw [← hcontent]
    conv_lhs => rw [← List.take_append_drop cs.length buff.data]
    congr 1
    refine List.eq_replicate_iff.2 ⟨by rw [List.length_drop, hdata], ?_⟩
    intro x hx
    obtain ⟨i, hi⟩ := List.mem_iff_getElem?.1 hx
    rw [List.getElem?_drop] at hi
    have hbound := (List.getElem?_eq_some_iff.1 hi).1
    rw [hzeroes _ (by omega) (by omega)] at hi
    exact (Option.some.inj hi).symm
  · rintro ⟨hlen, hlt, hdata⟩
    refine ⟨hlen, UInt64.lt_iff_toNat_lt.2 (by omega), ?_, ?_, fun i hle hi => ?_⟩
    · rw [hdata, List.length_append, List.length_map, List.length_replicate]
      omega
    · rw [hdata, List.take_left' (List.length_map _)]
    · rw [hdata, List.getElem?_append_right (by rw [List.length_map]; omega),
        List.getElem?_replicate, if_pos (by rw [List.length_map]; omega)]

theorem buffCreate_holds : Holds buffCreate [] :=
  holds_iff.2 ⟨rfl, by decide, rfl⟩

theorem buffClear_holds {buff : Buff} {cs : List Char} (h : Holds buff cs) :
    ∃ buff', buffClear buff = .ok buff' ∧ Holds buff' [] ∧ buff'.cap = buff.cap := by
  obtain ⟨-, hlt, hdata⟩ := holds_iff.1 h
  have hmemset : memset buff.data 0 nul buff.cap.toNat =
      .ok (List.replicate buff.cap.toNat (some nul)) := by
    have hset := @memset_append Char [] buff.data [] nul 0 buff.cap.toNat rfl h.length_data.symm
    simpa using hset
  unfold buffClear
  rw [hmemset]
  refine ⟨_, rfl, holds_iff.2 ⟨rfl, ?_, rfl⟩, rfl⟩
  show 0 < buff.cap.toNat
  omega

/-- A character put behind the others, with room for a zero behind it. -/
theorem store_holds {buff : Buff} {cs : List Char} (h : Holds buff cs) (c : Char)
    (hroom : cs.length + 1 < buff.cap.toNat) :
    ∃ data, store buff.data buff.len.toNat c = .ok data ∧
      Holds { buff with data, len := buff.len + 1 } (cs ++ [c]) := by
  obtain ⟨hlen, -, hdata⟩ := holds_iff.1 h
  have hcap := buff.cap.toNat_lt
  have hzero : List.replicate (buff.cap.toNat - cs.length) (some nul) =
      some nul :: List.replicate (buff.cap.toNat - (cs.length + 1)) (some nul) := by
    rw [show buff.cap.toNat - cs.length = buff.cap.toNat - (cs.length + 1) + 1 by omega,
      List.replicate_succ]
  have hlen' : (buff.len + 1).toNat = cs.length + 1 := by
    rw [UInt64.toNat_add, hlen]
    show (cs.length + 1) % 2 ^ 64 = _
    omega
  rw [hdata, hzero, store_append c (by rw [hlen, List.length_map])]
  refine ⟨_, rfl, holds_iff.2 ⟨?_, ?_, ?_⟩⟩
  · rw [List.length_append]
    exact hlen'
  · rw [List.length_append]
    exact hroom
  · simp

/-- A full buffer is doubled. -/
theorem buffGrow_holds (alloc : Allocator) {buff : Buff} {cs : List Char} (h : Holds buff cs)
    (hfull : cs.length + 1 = buff.cap.toNat) (hcap : buff.cap.toNat < 2 ^ 63) :
    (alloc.gives (2 * buff.cap.toNat) = false ∧ buffGrow alloc buff = .error .abort) ∨
    (alloc.gives (2 * buff.cap.toNat) = true ∧ ∃ buff', buffGrow alloc buff = .ok buff' ∧
      Holds buff' cs ∧ buff'.cap.toNat = 2 * buff.cap.toNat) := by
  obtain ⟨hlen, -, hdata⟩ := holds_iff.1 h
  have hdouble : (buff.cap <<< 1).toNat = 2 * buff.cap.toNat := by
    rw [UInt64.toNat_shiftLeft]
    show buff.cap.toNat <<< 1 % 2 ^ 64 = _
    rw [Nat.shiftLeft_eq]
    omega
  have hnext : (buff.len + 1).toNat = buff.cap.toNat := by
    rw [UInt64.toNat_add, hlen]
    show (cs.length + 1) % 2 ^ 64 = _
    omega
  have hrest : ((buff.cap <<< 1) - buff.len - 1).toNat = buff.cap.toNat := by
    have hle : buff.len ≤ buff.cap <<< 1 := UInt64.le_iff_toNat_le.2 (by omega)
    have hlen' : ((buff.cap <<< 1) - buff.len).toNat = buff.cap.toNat + 1 := by
      rw [UInt64.toNat_sub_of_le _ _ hle]
      omega
    have hle' : (1 : UInt64) ≤ (buff.cap <<< 1) - buff.len := UInt64.le_iff_toNat_le.2 (by
      rw [hlen']
      exact Nat.le_add_left 1 _)
    rw [UInt64.toNat_sub_of_le _ _ hle', hlen']
    rfl
  unfold buffGrow Allocator.realloc
  simp only [Nat.div_one, hdouble, hnext, hrest]
  cases hgives : alloc.gives (2 * buff.cap.toNat) with
  | false => exact .inl ⟨rfl, rfl⟩
  | true =>
    -- the last zero stays, and the new half is zeroed
    have hone : buff.cap.toNat - cs.length = 1 := by omega
    have hfront : buff.data.take (2 * buff.cap.toNat) = cs.map some ++ [some nul] := by
      rw [List.take_of_length_le (by rw [h.length_data]; omega), hdata, hone]
      rfl
    have hback : 2 * buff.cap.toNat - buff.data.length = buff.cap.toNat := by
      rw [h.length_data]
      omega
    have hmemset := @memset_append Char (cs.map some ++ [some nul])
      (List.replicate buff.cap.toNat none) [] nul buff.cap.toNat buff.cap.toNat
      (by simp [hfull]) (by simp)
    rw [List.append_nil, List.append_nil] at hmemset
    simp only [if_true, hfront, hback, hmemset]
    refine .inr ⟨trivial, _, rfl, holds_iff.2 ⟨hlen, ?_, ?_⟩, hdouble⟩
    · show cs.length < (buff.cap <<< 1).toNat
      omega
    · show _ = cs.map some ++ List.replicate ((buff.cap <<< 1).toNat - cs.length) (some nul)
      rw [hdouble, show 2 * buff.cap.toNat - cs.length = buff.cap.toNat + 1 by omega,
        List.replicate_succ, List.append_assoc]
      rfl

/-- **One more character**: it is there, or there is no room for it. -/
theorem buffAdd_holds (alloc : Allocator) {buff : Buff} {cs : List Char} (h : Holds buff cs)
    (hcap : buff.cap.toNat < 2 ^ 63) (c : Char) :
    (alloc.gives (2 * buff.cap.toNat) = false ∧ buffAdd alloc buff c = .error .abort) ∨
    ∃ buff', buffAdd alloc buff c = .ok buff' ∧ Holds buff' (cs ++ [c]) ∧
      buff'.cap.toNat < 2 ^ 63 := by
  obtain ⟨hlen, hlt, -⟩ := holds_iff.1 h
  have hfull : buff.len + 1 ≥ buff.cap ↔ buff.cap.toNat ≤ cs.length + 1 := by
    rw [ge_iff_le, UInt64.le_iff_toNat_le, UInt64.toNat_add, hlen]
    show _ ≤ (cs.length + 1) % 2 ^ 64 ↔ _
    rw [Nat.mod_eq_of_lt (by omega)]
  unfold buffAdd
  by_cases hroom : buff.cap.toNat ≤ cs.length + 1
  · rw [if_pos (hfull.2 hroom)]
    rcases buffGrow_holds alloc h (by omega) hcap with
      ⟨hgives, habort⟩ | ⟨hgives, grown, hgrow, hholds, hgrown⟩
    · rw [habort]
      exact .inl ⟨hgives, rfl⟩
    · obtain ⟨data, hstore, hdata⟩ := store_holds hholds c (by omega)
      simp only [hgrow, ok_bind, hstore]
      refine .inr ⟨_, rfl, hdata, ?_⟩
      show grown.cap.toNat < 2 ^ 63
      rw [hgrown]
      exact alloc.below _ hgives
  · rw [if_neg fun hge => hroom (hfull.1 hge)]
    obtain ⟨data, hstore, hdata⟩ := store_holds h c (by omega)
    simp only [ok_bind, hstore]
    exact .inr ⟨_, rfl, hdata, hcap⟩

/-! ## A run -/

theorem run_concat (alloc : Allocator) (ops : List Op) (op : Op) :
    run alloc (ops ++ [op]) = run alloc ops >>= fun buff => step alloc buff op := by
  unfold run
  rw [List.foldlM_append]
  congr 1
  funext buff
  rw [List.foldlM_cons]
  exact bind_pure _

theorem added_concat (ops : List Op) (op : Op) : added (ops ++ [op]) = match op with
    | .add c => added ops ++ [c]
    | .clear => [] := by
  unfold added
  rw [List.foldl_append]
  rfl

theorem Refused.append {alloc : Allocator} {ops : List Op} (h : Refused alloc ops) (op : Op) :
    Refused alloc (ops ++ [op]) := by
  obtain ⟨pre, buff, c, hpre, hrun, hgives⟩ := h
  exact ⟨pre, buff, c, hpre.trans (List.prefix_append _ _), hrun, hgives⟩

/-- The invariant of a run: what the buffer holds, and how large it can be. -/
theorem run_invariant (alloc : Allocator) (ops : List Op) :
    (∃ buff, run alloc ops = .ok buff ∧ Holds buff (added ops) ∧ buff.cap.toNat < 2 ^ 63) ∨
      (run alloc ops = .error .abort ∧ Refused alloc ops) := by
  induction ops using List.reverseRecOn with
  | nil => exact .inl ⟨buffCreate, rfl, buffCreate_holds, by decide⟩
  | append_singleton ops op ih =>
    rw [run_concat, added_concat]
    rcases ih with ⟨buff, hrun, hholds, hcap⟩ | ⟨hrun, hrefused⟩
    · rw [hrun, ok_bind]
      cases op with
      | add c =>
        rcases buffAdd_holds alloc hholds hcap c with ⟨hgives, habort⟩ | hadd
        · exact .inr ⟨habort, ops, buff, c, List.prefix_refl _, hrun, hgives⟩
        · exact .inl hadd
      | clear =>
        obtain ⟨buff', hclear, hholds', hcap'⟩ := buffClear_holds hholds
        exact .inl ⟨buff', hclear, hholds', by rw [hcap']; exact hcap⟩
    · rw [hrun]
      exact .inr ⟨rfl, hrefused.append op⟩

/-- **The buffer holds what was added since the last `clear`**, unless the allocator has
no room for it. -/
theorem run_holds (alloc : Allocator) (ops : List Op) :
    (∃ buff, run alloc ops = .ok buff ∧ Holds buff (added ops)) ∨
      (run alloc ops = .error .abort ∧ Refused alloc ops) := by
  rcases run_invariant alloc ops with ⟨buff, hrun, hholds, -⟩ | h
  · exact .inl ⟨buff, hrun, hholds⟩
  · exact .inr h

end Pshy
