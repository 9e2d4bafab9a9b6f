import Sprawl.Lib.Cxx
import Sprawl.Lib.OrderedMap

/-!
# Files with a time to live (`fttl/fttl.cc`)

`files_` maps a timestamp to the paths inserted with it.  `InsertPair` adds a path, one
pass of `Consumer` at the clock value `ss` removes every file whose timestamp is not
above `ss` and erases these entries while it goes through the map.  Both hold the lock,
so a run is any sequence of the two.

A path is attempted by exactly one sweep, the first one behind its insertion that is due
(`removals_eq`).
-/

namespace Fttl

open OrderedMap

/-- `files_`. -/
abbrev Files := OrderedMap UInt64 (List (List Char))

/-- An attempt to remove a stored path, with the timestamp it is filed under; `remove` gets the
path's `c_str()`, which ends at a zero byte. -/
abbrev Removal := UInt64 × List Char

def insertPair (files : Files) (timestamp : UInt64) (path : List Char) : Files :=
  match files.find timestamp with
  | none => files.insert timestamp [path]
  | some _ => files.update timestamp fun paths => paths ++ [path]

/-- The loop of `Consumer` at one entry: the map and the removals so far, one attempt for each
stored path. -/
def visit (ss : UInt64) (state : Files × List Removal) (entry : UInt64 × List (List Char)) :
    Files × List Removal :=
  if entry.1 ≤ ss then
    (state.1.erase entry.1, state.2 ++ entry.2.map fun filename => (entry.1, filename))
  else state

/-- One pass of `Consumer`. -/
def consume (ss : UInt64) (files : Files) : Files × List Removal :=
  files.entries.foldl (visit ss) (files, [])

/-- What a thread does while it has the lock. -/
inductive Op
  | insertPair (timestamp : UInt64) (path : List Char)
  | sweep (ss : UInt64)
deriving DecidableEq

def step (files : Files) : Op → Files × List Removal
  | .insertPair timestamp path => (insertPair files timestamp path, [])
  | .sweep ss => consume ss files

/-- `files_` behind a run. -/
def filesAfter (ops : List Op) : Files := ops.foldl (fun files op => (step files op).1) .empty

/-- The removals of the operation at `j`. -/
def removals (ops : List Op) (j : Nat) : List Removal :=
  match ops[j]? with
  | none => []
  | some op => (step (filesAfter (ops.take j)) op).2

/-! ## What one operation does -/

theorem insertPair_valuesAt (files : Files) (timestamp t : UInt64) (path : List Char) :
    (insertPair files timestamp path).valuesAt t =
      files.valuesAt t ++ if timestamp = t then [path] else [] := by
  unfold insertPair valuesAt
  cases hfind : files.find timestamp with
  | none =>
    rw [find_insert _ _ hfind]
    by_cases ht : timestamp = t
    · subst ht
      rw [if_pos rfl, if_pos rfl, hfind]
      rfl
    · rw [if_neg (Ne.symm ht), if_neg ht, List.append_nil]
  | some paths =>
    rw [find_update]
    by_cases ht : timestamp = t
    · subst ht
      rw [if_pos rfl, if_pos rfl, hfind]
      rfl
    · rw [if_neg (Ne.symm ht), if_neg ht, List.append_nil]

/-- The loop over the entries it has still to visit. -/
theorem visit_foldl (ss : UInt64) (es : List (UInt64 × List (List Char)))
    (state : Files × List Removal) :
    (∀ t, (es.foldl (visit ss) state).1.find t =
      if t ≤ ss ∧ t ∈ es.map Prod.fst then none else state.1.find t) ∧
    (es.foldl (visit ss) state).2 =
      state.2 ++ elementsOf (es.filter fun e => e.1 ≤ ss) := by
  induction es generalizing state with
  | nil => simp [elementsOf]
  | cons e es ih =>
    obtain ⟨hfind, hlog⟩ := ih (visit ss state e)
    rw [List.foldl_cons]
    by_cases hdue : e.1 ≤ ss
    · have hvisit : visit ss state e =
          (state.1.erase e.1, state.2 ++ e.2.map fun filename => (e.1, filename)) := if_pos hdue
      rw [hvisit] at hfind hlog ⊢
      refine ⟨fun t => ?_, ?_⟩
      · rw [hfind, find_erase]
        by_cases ht : t = e.1
        · rw [if_pos ht, ite_self, if_pos ⟨ht ▸ hdue, ht ▸ List.mem_cons_self⟩]
        · rw [if_neg ht]
          exact if_congr (by rw [List.map_cons, List.mem_cons, or_iff_right ht]) rfl rfl
      · rw [hlog, List.filter_cons_of_pos (by simpa using hdue), List.append_assoc]
        rfl
    · have hvisit : visit ss state e = state := if_neg hdue
      rw [hvisit] at hfind hlog ⊢
      refine ⟨fun t => ?_, ?_⟩
      · rw [hfind]
        refine if_congr ?_ rfl rfl
        rw [List.map_cons, List.mem_cons]
        constructor
        · rintro ⟨hle, hmem⟩
          exact ⟨hle, .inr hmem⟩
        · rintro ⟨hle, rfl | hmem⟩
          · exact absurd hle hdue
          · exact ⟨hle, hmem⟩
      · rw [hlog, List.filter_cons_of_neg (by simpa using hdue)]

theorem consume_valuesAt (ss : UInt64) (files : Files) (t : UInt64) :
    (consume ss files).1.valuesAt t = if t ≤ ss then [] else files.valuesAt t := by
  obtain ⟨hfind, -⟩ := visit_foldl ss files.entries (files, [])
  unfold valuesAt consume
  rw [hfind]
  by_cases hdue : t ≤ ss
  · by_cases hmem : t ∈ files.entries.map Prod.fst
    · rw [if_pos ⟨hdue, hmem⟩, if_pos hdue]
      rfl
    · have hnone : files.find t = none := find_eq_none_iff.2 fun e he h =>
        hmem (h ▸ List.mem_map_of_mem he)
      rw [if_neg (fun h => hmem h.2), if_pos hdue, hnone]
      rfl
  · rw [if_neg (fun h => hdue h.1), if_neg hdue]

/-- A sweep attempts what is stored under a timestamp that is due, in the order stored. -/
theorem consume_removals (ss : UInt64) (files : Files) (t : UInt64) :
    valuesOf t (consume ss files).2 = if t ≤ ss then files.valuesAt t else [] := by
  obtain ⟨-, hlog⟩ := visit_foldl ss files.entries (files, [])
  have hkept : valuesOf t (consume ss files).2 =
      (files.filterKeys fun k => k ≤ ss).valuesAt t := by
    rw [← valuesOf_elements, consume, hlog]
    rfl
  rw [hkept, valuesAt, find_filterKeys]
  by_cases hdue : t ≤ ss
  · simp [hdue, valuesAt]
  · simp [hdue]

/-! ## What a run does -/

/-- The operation at `k` is a sweep at a clock value that is not below `t`. -/
def due (ops : List Op) (t : UInt64) (k : Nat) : Bool :=
  match ops[k]? with
  | some (.sweep ss) => t ≤ ss
  | _ => false

/-- The path that the operation at `i` inserts with the timestamp `t`. -/
def insertedAt (ops : List Op) (t : UInt64) (i : Nat) : Option (List Char) :=
  match ops[i]? with
  | some (.insertPair timestamp path) => if timestamp = t then some path else none
  | _ => none

/-- The first sweep behind `i` that is due for `t` is the operation at `j`. -/
def FirstDue (ops : List Op) (t : UInt64) (i j : Nat) : Prop :=
  i < j ∧ due ops t j = true ∧ ∀ k < j, i < k → due ops t k = false

instance decidableFirstDue (ops : List Op) (t : UInt64) (i j : Nat) :
    Decidable (FirstDue ops t i j) :=
  inferInstanceAs (Decidable (_ ∧ _ ∧ ∀ k < j, i < k → due ops t k = false))

/-- What was inserted with `t` and has seen no sweep that is due, in order. -/
def pending (ops : List Op) (t : UInt64) : List (List Char) :=
  (List.range ops.length).filterMap fun i =>
    if ∀ k < ops.length, i < k → due ops t k = false then insertedAt ops t i else none

theorem filesAfter_concat (ops : List Op) (op : Op) :
    filesAfter (ops ++ [op]) = (step (filesAfter ops) op).1 := by
  rw [filesAfter, List.foldl_append]
  rfl

theorem due_append {ops : List Op} (more : List Op) {t : UInt64} {k : Nat} (hk : k < ops.length) :
    due (ops ++ more) t k = due ops t k := by
  unfold due
  rw [List.getElem?_append_left hk]

theorem insertedAt_append {ops : List Op} (more : List Op) {t : UInt64} {i : Nat}
    (hi : i < ops.length) : insertedAt (ops ++ more) t i = insertedAt ops t i := by
  unfold insertedAt
  rw [List.getElem?_append_left hi]

theorem due_last (ops : List Op) (op : Op) (t : UInt64) :
    due (ops ++ [op]) t ops.length = due [op] t 0 := by
  unfold due
  rw [List.getElem?_concat_length]
  rfl

theorem insertedAt_last (ops : List Op) (op : Op) (t : UInt64) :
    insertedAt (ops ++ [op]) t ops.length = insertedAt [op] t 0 := by
  unfold insertedAt
  rw [List.getElem?_concat_length]
  rfl

/-- One more operation: a sweep that is due leaves nothing, any other operation adds what it
inserts. -/
theorem pending_concat (ops : List Op) (op : Op) (t : UInt64) :
    pending (ops ++ [op]) t =
      (if due [op] t 0 then [] else pending ops t) ++ (insertedAt [op] t 0).toList := by
  have hlen : (ops ++ [op]).length = ops.length + 1 := by simp
  unfold pending
  rw [hlen, List.range_succ, List.filterMap_append]
  congr 1
  · by_cases hdue : due [op] t 0 = true
    · rw [if_pos hdue, List.filterMap_eq_nil_iff]
      intro i hi
      have hi' : i < ops.length := List.mem_range.1 hi
      refine if_neg fun hall => ?_
      have := hall ops.length (by omega) hi'
      rw [due_last, hdue] at this
      cases this
    · rw [if_neg hdue]
      refine List.filterMap_congr fun i hi => ?_
      have hi' : i < ops.length := List.mem_range.1 hi
      rw [insertedAt_append _ hi']
      refine if_congr ?_ rfl rfl
      constructor
      · intro hall k hk hik
        rw [← due_append [op] hk]
        exact hall k (by omega) hik
      · intro hall k hk hik
        rcases Nat.lt_succ_iff_lt_or_eq.1 hk with hk | rfl
        · rw [due_append _ hk]
          exact hall k hk hik
        · rw [due_last]
          exact Bool.eq_false_iff.2 hdue
  · have hnone : ∀ k < ops.length + 1, ops.length < k → due (ops ++ [op]) t k = false := by
      intro k hk hlt
      omega
    rw [List.filterMap_cons, List.filterMap_nil, if_pos hnone, insertedAt_last]
    cases insertedAt [op] t 0 <;> rfl

/-- **What the map holds under `t` is what is pending.** -/
theorem filesAfter_valuesAt (ops : List Op) (t : UInt64) :
    (filesAfter ops).valuesAt t = pending ops t := by
  induction ops using List.reverseRecOn with
  | nil => rfl
  | append_singleton ops op ih =>
    rw [filesAfter_concat, pending_concat, ← ih]
    cases op with
    | insertPair timestamp path =>
      have hdue : due [Op.insertPair timestamp path] t 0 = false := rfl
      have hinserted : insertedAt [Op.insertPair timestamp path] t 0 =
          if timestamp = t then some path else none := rfl
      rw [hdue, hinserted, if_neg (by simp)]
      show (insertPair _ timestamp path).valuesAt t = _
      rw [insertPair_valuesAt]
      by_cases ht : timestamp = t <;> simp [ht]
    | sweep ss =>
      show (consume ss _).1.valuesAt t = (if decide (t ≤ ss) = true then _ else _) ++ []
      rw [consume_valuesAt, List.append_nil]
      simp only [decide_eq_true_eq]

theorem removals_valuesOf (ops : List Op) (j : Nat) (t : UInt64) :
    valuesOf t (removals ops j) = if due ops t j then pending (ops.take j) t else [] := by
  unfold removals due
  cases ops[j]? with
  | none => simp [valuesOf]
  | some op =>
    cases op with
    | insertPair timestamp path => simp [step, valuesOf]
    | sweep ss =>
      show valuesOf t (consume ss _).2 = _
      rw [consume_removals, filesAfter_valuesAt]
      simp only [decide_eq_true_eq]

theorem exists_firstDue_iff {ops : List Op} {t : UInt64} {i : Nat} :
    (∃ j, FirstDue ops t i j) ↔ ∃ j, i < j ∧ due ops t j = true := by
  constructor
  · rintro ⟨j, hij, hdue, -⟩
    exact ⟨j, hij, hdue⟩
  · intro h
    refine ⟨Nat.find h, (Nat.find_spec h).1, (Nat.find_spec h).2, fun k hk hik => ?_⟩
    exact Bool.eq_false_iff.2 fun hdue => Nat.find_min h hk ⟨hik, hdue⟩

theorem FirstDue.unique {ops : List Op} {t : UInt64} {i j j' : Nat} (h : FirstDue ops t i j)
    (h' : FirstDue ops t i j') : j = j' := by
  obtain ⟨hij, hdue, hfirst⟩ := h
  obtain ⟨hij', hdue', hfirst'⟩ := h'
  rcases Nat.lt_trichotomy j j' with hlt | heq | hlt
  · rw [hfirst' j hlt hij] at hdue
    cases hdue
  · exact heq
  · rw [hfirst j' hlt hij'] at hdue'
    cases hdue'

/-- **Every inserted path is removed by the first sweep that is due, and by no other.** -/
theorem removals_eq (ops : List Op) (t : UInt64) :
    (∀ j, valuesOf t (removals ops j) = (List.range ops.length).filterMap fun i =>
      if FirstDue ops t i j then insertedAt ops t i else none) ∧
    ∀ i, ((∃ j, FirstDue ops t i j) ↔ ∃ j, i < j ∧ due ops t j = true) ∧
      ∀ j j', FirstDue ops t i j → FirstDue ops t i j' → j = j' := by
  refine ⟨fun j => ?_, fun i => ⟨exists_firstDue_iff, fun j j' h h' => h.unique h'⟩⟩
  rw [removals_valuesOf]
  by_cases hdue : due ops t j = true
  · have hj : j < ops.length := by
      by_contra hge
      rw [due, List.getElem?_eq_none (Nat.le_of_not_lt hge)] at hdue
      cases hdue
    obtain ⟨rest, hlen⟩ : ∃ rest, ops.length = j + rest := ⟨ops.length - j, by omega⟩
    have htake : (ops.take j).length = j := List.length_take_of_le (by omega)
    have hlater : ((List.range rest).map fun i => j + i).filterMap
        (fun i => if FirstDue ops t i j then insertedAt ops t i else none) = [] := by
      rw [List.filterMap_eq_nil_iff]
      intro i hi
      obtain ⟨d, -, rfl⟩ := List.mem_map.1 hi
      exact if_neg fun h => absurd h.1 (by omega)
    rw [if_pos hdue, hlen, List.range_add, List.filterMap_append, hlater, List.append_nil,
      pending, htake]
    refine List.filterMap_congr fun i hi => ?_
    have hi' : i < (ops.take j).length := by
      rw [htake]
      exact List.mem_range.1 hi
    have hinserted := @insertedAt_append _ (ops.drop j) t _ hi'
    have hdues : ∀ k < j, due ops t k = due (ops.take j) t k := by
      intro k hk
      have := @due_append (ops.take j) (ops.drop j) t k (by omega)
      rwa [List.take_append_drop] at this
    rw [List.take_append_drop] at hinserted
    rw [hinserted]
    refine if_congr ⟨fun hall => ?_, fun hfirst k hk hik => ?_⟩ rfl rfl
    · refine ⟨htake ▸ hi', hdue, fun k hk hik => ?_⟩
      rw [hdues k hk]
      exact hall k hk hik
    · rw [← hdues k hk]
      exact hfirst.2.2 k hk hik
  · rw [if_neg hdue, eq_comm, List.filterMap_eq_nil_iff]
    intro i _
    exact if_neg fun h => hdue h.2.1

end Fttl
