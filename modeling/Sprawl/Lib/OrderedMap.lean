import Mathlib.Data.List.Sort
import Mathlib.Order.Defs.LinearOrder

/-!
# A map kept in the order of its keys

`OrderedMap` is a list of entries with strictly increasing keys, so a key occurs once and
going through the entries is going through the keys in order.  What an operation does is
said by `find` alone (`find_insert`, `find_update`, `find_filterKeys`).
-/

structure OrderedMap (κ ν : Type*) [LinearOrder κ] where
  entries : List (κ × ν)
  sorted : entries.Pairwise fun a b => a.1 < b.1

namespace OrderedMap

variable {κ ν : Type*} [LinearOrder κ]

def empty : OrderedMap κ ν := ⟨[], .nil⟩

def find (m : OrderedMap κ ν) (k : κ) : Option ν :=
  (m.entries.find? fun e => e.1 = k).map Prod.snd

def insertEntry (k : κ) (v : ν) : List (κ × ν) → List (κ × ν)
  | [] => [(k, v)]
  | e :: es => if k < e.1 then (k, v) :: e :: es else if k = e.1 then e :: es else
      e :: insertEntry k v es

theorem mem_insertEntry {k : κ} {v : ν} {es : List (κ × ν)} {e : κ × ν}
    (h : e ∈ insertEntry k v es) : e = (k, v) ∨ e ∈ es := by
  induction es with
  | nil => simpa [insertEntry] using h
  | cons a es ih =>
    unfold insertEntry at h
    split at h
    · simpa using h
    · split at h
      · exact .inr h
      · rcases List.mem_cons.1 h with rfl | h
        · exact .inr List.mem_cons_self
        · exact (ih h).imp_right (List.mem_cons_of_mem _)

theorem insertEntry_sorted {k : κ} {v : ν} {es : List (κ × ν)}
    (h : es.Pairwise fun a b => a.1 < b.1) :
    (insertEntry k v es).Pairwise fun a b => a.1 < b.1 := by
  induction es with
  | nil => simp [insertEntry]
  | cons a es ih =>
    obtain ⟨ha, hes⟩ := List.pairwise_cons.1 h
    unfold insertEntry
    by_cases hlt : k < a.1
    · rw [if_pos hlt]
      refine List.pairwise_cons.2 ⟨fun e he => ?_, h⟩
      rcases List.mem_cons.1 he with rfl | he
      · exact hlt
      · exact hlt.trans (ha e he)
    · rw [if_neg hlt]
      by_cases heq : k = a.1
      · rw [if_pos heq]
        exact h
      · rw [if_neg heq]
        refine List.pairwise_cons.2 ⟨fun e he => ?_, ih hes⟩
        rcases mem_insertEntry he with rfl | he
        · exact lt_of_le_of_ne (not_lt.1 hlt) (Ne.symm heq)
        · exact ha e he

/-- A new entry; nothing changes when the key is there. -/
def insert (m : OrderedMap κ ν) (k : κ) (v : ν) : OrderedMap κ ν :=
  ⟨insertEntry k v m.entries, insertEntry_sorted m.sorted⟩

/-- The value of a key changed in place. -/
def update (m : OrderedMap κ ν) (k : κ) (f : ν → ν) : OrderedMap κ ν :=
  ⟨m.entries.map fun e => if e.1 = k then (e.1, f e.2) else e, by
    refine List.Pairwise.map _ (fun a b h => ?_) m.sorted
    split <;> split <;> exact h⟩

/-- The entries whose key satisfies `p`. -/
def filterKeys (m : OrderedMap κ ν) (p : κ → Bool) : OrderedMap κ ν :=
  ⟨m.entries.filter fun e => p e.1, m.sorted.filter _⟩

def erase (m : OrderedMap κ ν) (k : κ) : OrderedMap κ ν := m.filterKeys fun k' => k' ≠ k

theorem find_eq_none_iff {m : OrderedMap κ ν} {k : κ} :
    m.find k = none ↔ ∀ e ∈ m.entries, e.1 ≠ k := by
  simp [find]

theorem find_insertEntry {k k' : κ} {v : ν} {es : List (κ × ν)} (hne : k' ≠ k) :
    (insertEntry k v es).find? (fun e => e.1 = k') = es.find? (fun e => e.1 = k') := by
  have hkk : ¬ k = k' := fun h => hne h.symm
  induction es with
  | nil => simp [insertEntry, hkk]
  | cons a es ih =>
    unfold insertEntry
    split
    · simp [hkk]
    · split
      · rfl
      · rw [List.find?_cons, List.find?_cons, ih]

theorem find_insertEntry_self {k : κ} {v : ν} {es : List (κ × ν)} (h : ∀ e ∈ es, e.1 ≠ k) :
    (insertEntry k v es).find? (fun e => e.1 = k) = some (k, v) := by
  induction es with
  | nil => simp [insertEntry]
  | cons a es ih =>
    obtain ⟨ha, hes⟩ := List.forall_mem_cons.1 h
    unfold insertEntry
    split
    · simp
    · rw [if_neg (Ne.symm ha), List.find?_cons_of_neg (by simpa using ha), ih hes]

theorem find_insert {m : OrderedMap κ ν} {k : κ} (v : ν) (k' : κ) (h : m.find k = none) :
    (m.insert k v).find k' = if k' = k then some v else m.find k' := by
  by_cases hk : k' = k
  · rw [if_pos hk, hk, find, insert, find_insertEntry_self (find_eq_none_iff.1 h)]
    rfl
  · rw [if_neg hk, find, insert, find_insertEntry hk]
    rfl

theorem find_update {m : OrderedMap κ ν} {k : κ} (f : ν → ν) (k' : κ) :
    (m.update k f).find k' = if k' = k then (m.find k).map f else m.find k' := by
  unfold find update
  simp only
  induction m.entries with
  | nil => simp
  | cons a es ih =>
    rw [List.map_cons, List.find?_cons, List.find?_cons, List.find?_cons]
    by_cases ha : a.1 = k
    · by_cases hk : k' = k
      · simp [ha, hk]
      · have hak : ¬ a.1 = k' := fun h => hk (h.symm.trans ha)
        simpa [ha, hk, Ne.symm hk, hak] using ih
    · by_cases hak : a.1 = k'
      · have hk : k' ≠ k := fun h => ha (hak.trans h)
        simp [hak, hk]
      · by_cases hk : k' = k
        · simpa [ha, hak, hk] using ih
        · simpa [ha, hak, hk] using ih

theorem find_filterKeys {m : OrderedMap κ ν} (p : κ → Bool) (k : κ) :
    (m.filterKeys p).find k = if p k then m.find k else none := by
  unfold find filterKeys
  simp only
  induction m.entries with
  | nil => simp
  | cons a es ih =>
    rw [List.filter_cons]
    by_cases hak : a.1 = k
    · by_cases hp : p k
      · simp [hak, hp]
      · rw [if_neg (by rw [hak]; exact hp)]
        simpa [hp] using ih
    · split
      · rw [List.find?_cons_of_neg (by simpa using hak),
          List.find?_cons_of_neg (by simpa using hak)]
        exact ih
      · rw [List.find?_cons_of_neg (by simpa using hak)]
        exact ih

theorem find_erase {m : OrderedMap κ ν} (k k' : κ) :
    (m.erase k).find k' = if k' = k then none else m.find k' := by
  rw [erase, find_filterKeys]
  by_cases hk : k' = k <;> simp [hk]

/-! ## Maps to lists -/

section
variable {α : Type*}

/-- The elements of the lists, each with its key, in the order of the keys. -/
def elementsOf (es : List (κ × List α)) : List (κ × α) :=
  es.flatMap fun e => e.2.map fun x => (e.1, x)

/-- The elements stored under `k`. -/
def valuesAt (m : OrderedMap κ (List α)) (k : κ) : List α := (m.find k).getD []

/-- The values with the key `k`, in order. -/
def valuesOf (k : κ) (xs : List (κ × α)) : List α :=
  (xs.filter fun x => x.1 = k).map Prod.snd

theorem valuesOf_append (k : κ) (xs ys : List (κ × α)) :
    valuesOf k (xs ++ ys) = valuesOf k xs ++ valuesOf k ys := by
  rw [valuesOf, List.filter_append, List.map_append]
  rfl

theorem count_valuesOf [BEq α] [LawfulBEq α] [BEq (κ × α)] [LawfulBEq (κ × α)] (k : κ) (x : α)
    (xs : List (κ × α)) : (valuesOf k xs).count x = xs.count (k, x) := by
  induction xs with
  | nil => rfl
  | cons y xs ih =>
    rw [← List.singleton_append, valuesOf_append, List.count_append, List.count_append, ih]
    congr 1
    by_cases hk : y.1 = k
    · subst hk
      have hsnd : y = (y.1, x) ↔ y.2 = x := by rw [Prod.ext_iff, and_iff_right rfl]
      have hfilter : valuesOf y.1 [y] = [y.2] := by simp [valuesOf]
      rw [hfilter, List.count_singleton, List.count_singleton]
      exact if_congr (by rw [beq_iff_eq, beq_iff_eq, hsnd]) rfl rfl
    · have hne : y ≠ (k, x) := fun h => hk (congrArg Prod.fst h)
      simp [valuesOf, hk, hne]

theorem valuesOf_map (k k' : κ) (xs : List α) :
    valuesOf k (xs.map fun x => (k', x)) = if k' = k then xs else [] := by
  induction xs with
  | nil => simp [valuesOf]
  | cons x xs ih =>
    rw [List.map_cons, ← List.singleton_append, valuesOf_append, ih]
    by_cases hk : k' = k <;> simp [valuesOf, hk]

theorem valuesOf_elements_of_ne {k : κ} {es : List (κ × List α)} (h : ∀ e ∈ es, e.1 ≠ k) :
    valuesOf k (elementsOf es) = [] := by
  unfold valuesOf
  rw [List.filter_eq_nil_iff.2, List.map_nil]
  intro x hx
  obtain ⟨e, he, hx⟩ := List.mem_flatMap.1 hx
  obtain ⟨y, -, rfl⟩ := List.mem_map.1 hx
  simpa using h e he

/-- Of all elements those with the key `k` are what is stored under `k`. -/
theorem valuesOf_elements (m : OrderedMap κ (List α)) (k : κ) :
    valuesOf k (elementsOf m.entries) = m.valuesAt k := by
  obtain ⟨es, hes⟩ := m
  unfold valuesAt find
  induction es with
  | nil => rfl
  | cons e es ih =>
    obtain ⟨he, hes⟩ := List.pairwise_cons.1 hes
    rw [show elementsOf (e :: es) = e.2.map (fun x => (e.1, x)) ++ elementsOf es from rfl,
      valuesOf_append]
    by_cases hk : e.1 = k
    · have hrest : valuesOf k (elementsOf es) = [] :=
        valuesOf_elements_of_ne fun e' he' => hk ▸ (he e' he').ne'
      rw [hrest, valuesOf_map, if_pos hk, List.find?_cons_of_pos (by simpa using hk),
        List.append_nil]
      rfl
    · rw [valuesOf_map, if_neg hk, List.find?_cons_of_neg (by simpa using hk), List.nil_append]
      exact ih hes

end

end OrderedMap
