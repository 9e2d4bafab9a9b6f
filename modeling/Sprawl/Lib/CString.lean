import Sprawl.Lib.Cxx
import Sprawl.Lib.Fields

/-!
# Blocks and strings of C (`<stdlib.h>`, `<string.h>`)

A block of memory is a list of cells; a cell nothing was written to cannot be read, and
neither can one outside the block.  A pointer into a block is an index, `none` the null
pointer.  A string is what stands in front of the first NUL (`chars`).

`strtok_r` cuts a string up in place: called again and again it gives the fields of the
string, and at the end a null pointer (`strtokR_spec`).
-/

namespace Cstring

open Cxx Fields

/-! ## Blocks -/

/-- The cells of a block; `none` is one nothing was written to. -/
abbrev Block (α : Type) := List (Option α)

/-- Which sizes the allocator can give, in bytes.  No object has 2^63 bytes. -/
structure Allocator where
  gives : Nat → Bool
  below : ∀ n, gives n = true → n < 2 ^ 63

section
variable {α : Type}

/-- `calloc`, where the zero of a cell is `zero`. -/
def calloc (n : Nat) (zero : α) : Block α := List.replicate n (some zero)

/-- `realloc(block, bytes)`, for cells of `size` bytes; `none` is the null pointer. -/
def Allocator.realloc (alloc : Allocator) (size : Nat) (block : Block α) (bytes : Nat) :
    Option (Block α) :=
  if alloc.gives bytes then
    some (block.take (bytes / size) ++ List.replicate (bytes / size - block.length) none)
  else none

/-- `block[i]` -/
def load (block : Block α) (i : Nat) : Except Stop α :=
  match block[i]? with
  | some (some x) => .ok x
  | some none => .error (.undefined .uninitialized)
  | none => .error (.undefined .outOfBounds)

/-- `block[i] = x` -/
def store (block : Block α) (i : Nat) (x : α) : Except Stop (Block α) :=
  if i < block.length then .ok (block.set i (some x)) else .error (.undefined .outOfBounds)

/-- `memset(block + i, x, n)` -/
def memset (block : Block α) (i : Nat) (x : α) (n : Nat) : Except Stop (Block α) :=
  if i + n ≤ block.length then
    .ok (block.take i ++ List.replicate n (some x) ++ block.drop (i + n))
  else .error (.undefined .outOfBounds)

theorem load_of_drop {block post : Block α} {i : Nat} {x : α} (h : block.drop i = some x :: post) :
    load block i = .ok x := by
  have hget : block[i]? = some (some x) := by
    rw [← Nat.add_zero i, ← List.getElem?_drop, h]
    rfl
  unfold load
  rw [hget]

theorem store_append {pre post : Block α} {old : Option α} (x : α) {i : Nat} (hi : i = pre.length) :
    store (pre ++ old :: post) i x = .ok (pre ++ some x :: post) := by
  subst hi
  unfold store
  rw [if_pos (by simp), List.set_append_right _ _ (Nat.le_refl _), Nat.sub_self, List.set_cons_zero]

theorem memset_append {pre mid post : Block α} (x : α) {i n : Nat} (hi : i = pre.length)
    (hn : n = mid.length) :
    memset (pre ++ mid ++ post) i x n = .ok (pre ++ List.replicate n (some x) ++ post) := by
  subst hi hn
  unfold memset
  rw [if_pos (by simp), List.append_assoc pre mid post, List.take_left, ← List.drop_drop,
    List.drop_left, List.drop_left]

/-! ## A block from cell to cell -/

theorem load_map_some (pre post : List α) (x : α) {i : Nat} (hi : i = pre.length) :
    load ((pre ++ x :: post).map some) i = .ok x := by
  refine @load_of_drop _ _ (post.map some) _ _ ?_
  rw [hi, ← List.map_drop, List.drop_left, List.map_cons]

/-- The loop over the cells behind the first ones. -/
theorem mapM_load_from {β : Type} (f : α → Except Stop β) (pre xs : List α) :
    (List.range' pre.length xs.length).mapM (fun i => load ((pre ++ xs).map some) i >>= f) =
      xs.mapM f := by
  induction xs generalizing pre with
  | nil => rfl
  | cons x xs ih =>
    have hload : load ((pre ++ x :: xs).map some) pre.length = .ok x := load_map_some pre xs x rfl
    rw [List.length_cons, List.range'_succ, List.mapM_cons, List.mapM_cons, hload, ok_bind]
    congr 1
    funext y
    congr 1
    have hrest := ih (pre ++ [x])
    rwa [List.append_assoc, List.singleton_append, List.length_append, List.length_singleton]
      at hrest

theorem mapM_load {β : Type} (f : α → Except Stop β) (xs : List α) :
    (List.range xs.length).mapM (fun i => load (xs.map some) i >>= f) = xs.mapM f := by
  rw [List.range_eq_range']
  exact mapM_load_from f [] xs

end

/-! ## Strings -/

/-- The character that ends a string. -/
abbrev nul : Char := '\x00'

/-- The string at the front of a block. -/
def chars : Block Char → Except Stop (List Char)
  | [] => .error (.undefined .outOfBounds)
  | none :: _ => .error (.undefined .uninitialized)
  | some c :: block => if c = nul then .ok [] else do return c :: (← chars block)

/-- `strdup(block + i)`: the string in the new block. -/
def strdup (block : Block Char) (i : Nat) : Except Stop (List Char) := chars (block.drop i)

/-- How many characters with `p` are at the front. -/
def span (p : Char → Bool) : Block Char → Except Stop Nat
  | [] => .error (.undefined .outOfBounds)
  | none :: _ => .error (.undefined .uninitialized)
  | some c :: block => if p c then do return (← span p block) + 1 else .ok 0

def strspn (block : Block Char) (i : Nat) (set : List Char) : Except Stop Nat :=
  span (fun c => set.contains c) (block.drop i)

def strcspn (block : Block Char) (i : Nat) (set : List Char) : Except Stop Nat :=
  span (fun c => !(c = nul || set.contains c)) (block.drop i)

/-- `strtok_r(s, delim, &save)`: the block, the token and `save` afterwards. -/
def strtokR (block : Block Char) (s : Option Nat) (delim : List Char) (save : Option Nat) :
    Except Stop (Block Char × Option Nat × Option Nat) := do
  let s ← deref (s.or save)
  let token := s + (← strspn block s delim)
  if (← load block token) = nul then return (block, none, some token)
  let stop := token + (← strcspn block token delim)
  if (← load block stop) = nul then return (block, some token, some stop)
  return (← store block stop nul, some token, some (stop + 1))

/-- The sign of `strncmp` on two strings. -/
def compare : List Char → List Char → Nat → Int
  | _, _, 0 => 0
  | [], [], _ + 1 => 0
  | c :: _, [], _ + 1 => c.toNat
  | [], d :: _, _ + 1 => -d.toNat
  | c :: s, d :: t, n + 1 => if c = d then compare s t n else c.toNat - d.toNat

/-- `strncmp(s, t, n)` -/
def strncmp (s : Option (List Char)) (t : List Char) (n : Nat) : Except Stop Int := do
  return compare (← deref s) t n

theorem chars_eq {w : List Char} (h : nul ∉ w) (post : Block Char) :
    chars (w.map some ++ some nul :: post) = .ok w := by
  induction w with
  | nil => rfl
  | cons c w ih =>
    obtain ⟨hc, hw⟩ := not_or.1 (mt List.mem_cons.2 h)
    rw [List.map_cons, List.cons_append, chars, if_neg (Ne.symm hc), ih hw]
    rfl

/-- The string of a block has no NUL in it. -/
theorem nul_notMem_of_chars {block : Block Char} {w : List Char} (h : chars block = .ok w) :
    nul ∉ w := by
  induction block generalizing w with
  | nil => cases h
  | cons x block ih =>
    cases x with
    | none => cases h
    | some c =>
      by_cases hc : c = nul
      · rw [chars, if_pos hc] at h
        cases h
        exact List.not_mem_nil
      · rw [chars, if_neg hc] at h
        obtain ⟨rest, hrest, heq⟩ := bind_eq_ok.1 h
        cases heq
        rw [List.mem_cons, not_or]
        exact ⟨Ne.symm hc, ih hrest⟩

theorem span_eq {p : Char → Bool} {w : List Char} {c : Char} (hw : ∀ x ∈ w, p x = true)
    (hc : p c = false) (post : Block Char) :
    span p (w.map some ++ some c :: post) = .ok w.length := by
  induction w with
  | nil => exact if_neg (by rw [hc]; decide)
  | cons d w ih =>
    rw [List.map_cons, List.cons_append, span, if_pos (hw d List.mem_cons_self),
      ih fun x hx => hw x (List.mem_cons_of_mem _ hx)]
    rfl

/-- The first `n` characters are the same. -/
theorem compare_eq_zero {s t : List Char} (hs : nul ∉ s) (ht : nul ∉ t) (n : Nat) :
    compare s t n = 0 ↔ s.take n = t.take n := by
  have hpos : ∀ c : Char, c ≠ nul → c.toNat ≠ 0 := by
    intro c hc h
    exact hc (Char.toNat_inj.1 h)
  induction n generalizing s t with
  | zero => simp [compare]
  | succ n ih =>
    cases s with
    | nil =>
      cases t with
      | nil => simp [compare]
      | cons d t =>
        have hd := hpos d (Ne.symm (not_or.1 (mt List.mem_cons.2 ht)).1)
        simp [compare, hd]
    | cons c s =>
      obtain ⟨hc, hs'⟩ := not_or.1 (mt List.mem_cons.2 hs)
      cases t with
      | nil => simp [compare, hpos c (Ne.symm hc)]
      | cons d t =>
        obtain ⟨hd, ht'⟩ := not_or.1 (mt List.mem_cons.2 ht)
        rw [compare, List.take_succ_cons, List.take_succ_cons, List.cons.injEq]
        by_cases hcd : c = d
        · rw [if_pos hcd, and_iff_right hcd]
          exact ih hs' ht'
        · have hne : (c.toNat : Int) - d.toNat ≠ 0 := by
            intro h
            exact hcd (Char.toNat_inj.1 (by omega))
          rw [if_neg hcd]
          exact ⟨fun h => absurd h hne, fun h => absurd h.1 hcd⟩

theorem drop_append_of_drop {α : Type} {block front post : List α} {i : Nat}
    (h : block.drop i = front ++ post) : block.drop (i + front.length) = post := by
  rw [← List.drop_drop, h, List.drop_left]

section
variable {block post : Block Char} {delim : List Char} {i : Nat}

/-- The delimiters in front of `c`. -/
theorem strspn_eq {seps : List Char} {c : Char} (hseps : ∀ x ∈ seps, delim.contains x = true)
    (hc : delim.contains c = false) (hblock : block.drop i = seps.map some ++ some c :: post) :
    strspn block i delim = .ok seps.length ∧ load block (i + seps.length) = .ok c := by
  have hdrop := drop_append_of_drop hblock
  rw [List.length_map] at hdrop
  refine ⟨?_, load_of_drop hdrop⟩
  unfold strspn
  rw [hblock]
  exact span_eq hseps hc post

/-- The field in front of `c`. -/
theorem strcspn_eq {w : List Char} {c : Char} (hw : IsField (fun c => delim.contains c) w)
    (hnul : nul ∉ w) (hc : c = nul ∨ delim.contains c = true)
    (hblock : block.drop i = w.map some ++ some c :: post) :
    (∃ d, load block i = .ok d ∧ d ≠ nul) ∧ strcspn block i delim = .ok w.length ∧
      load block (i + w.length) = .ok c := by
  have hdrop := drop_append_of_drop hblock
  rw [List.length_map] at hdrop
  refine ⟨?_, ?_, load_of_drop hdrop⟩
  · cases w with
    | nil => exact absurd rfl hw.1
    | cons d w => exact ⟨d, load_of_drop hblock, Ne.symm (not_or.1 (mt List.mem_cons.2 hnul)).1⟩
  · unfold strcspn
    rw [hblock]
    refine span_eq (fun x hx => ?_) ?_ post
    · have hne : x ≠ nul := fun h => hnul (h ▸ hx)
      have hnot : delim.contains x = false := hw.2 x hx
      rw [hnot, decide_eq_false hne]
      rfl
    · rcases hc with rfl | hc
      · rfl
      · rw [hc, Bool.or_true]
        rfl

/-- **`strtok_r` gives the fields of a string one by one.** -/
theorem strtokR_spec {text : List Char} {s save : Option Nat} (hs : s.or save = some i)
    (hblock : block.drop i = text.map some ++ some nul :: post) (htext : nul ∉ text)
    (hdelim : nul ∉ delim) :
    (fields (fun c => delim.contains c) text = [] ∧
      ∃ next, strtokR block s delim save = .ok (block, none, some next)) ∨
    ∃ w rest block' token next,
      fields (fun c => delim.contains c) text = w :: fields (fun c => delim.contains c) rest ∧
      rest.length < text.length ∧ nul ∉ rest ∧
      strtokR block s delim save = .ok (block', some token, some next) ∧
      chars (block'.drop token) = .ok w ∧
      block'.drop next = rest.map some ++ some nul :: post := by
  have hnul : delim.contains nul = false := by simpa using hdelim
  obtain ⟨seps, front, rfl, hseps, rfl | ⟨w, rest, rfl, hw, hrest⟩⟩ :=
    exists_front (fun c => delim.contains c) text
  · -- only delimiters are left
    rw [List.append_nil] at hblock
    obtain ⟨hspn, hload⟩ := strspn_eq hseps hnul hblock
    refine .inl ⟨?_, i + seps.length, ?_⟩
    · rw [fields_seps hseps, fields_nil]
    · unfold strtokR
      simp only [hs, deref_some, ok_bind, hspn, hload, if_true]
      rfl
  · rw [List.mem_append, List.mem_append, not_or, not_or] at htext
    obtain ⟨-, hwnul, hrestnul⟩ := htext
    rw [List.map_append, List.append_assoc, List.map_append, List.append_assoc] at hblock
    have htoken := drop_append_of_drop hblock
    rw [List.length_map] at htoken
    obtain ⟨d, w', hcons⟩ := List.exists_cons_of_ne_nil hw.1
    have hspn : strspn block i delim = .ok seps.length := by
      rw [hcons, List.map_cons, List.cons_append] at hblock
      exact (strspn_eq hseps (hw.2 d (by rw [hcons]; exact List.mem_cons_self)) hblock).1
    rcases hrest with rfl | ⟨c, t, rfl, hc⟩
    · -- the last field ends at the NUL
      obtain ⟨⟨d, hload, hd⟩, hcspn, hstop⟩ := strcspn_eq hw hwnul (.inl rfl) htoken
      refine .inr ⟨w, [], block, i + seps.length, i + seps.length + w.length, ?_, ?_, by simp, ?_,
        ?_, ?_⟩
      · rw [fields_seps hseps, List.append_nil, fields_last hw, fields_nil]
      · have := List.length_pos_iff.2 hw.1
        simp only [List.length_append, List.length_nil]
        omega
      · unfold strtokR
        simp only [hs, deref_some, ok_bind, hspn, hload, hd, if_false, hcspn, hstop, if_true]
        rfl
      · rw [htoken]
        exact chars_eq hwnul post
      · have hend := drop_append_of_drop htoken
        rwa [List.length_map] at hend
    · -- the delimiter behind the field becomes a NUL
      obtain ⟨hcnul, htnul⟩ := not_or.1 (mt List.mem_cons.2 hrestnul)
      obtain ⟨⟨d, hload, hd⟩, hcspn, hstop⟩ := strcspn_eq hw hwnul (.inr hc) htoken
      have hfront : block = block.take (i + seps.length) ++ (w.map some ++ some c ::
          (t.map some ++ some nul :: post)) := by
        conv_lhs => rw [← List.take_append_drop (i + seps.length) block, htoken]
        rfl
      have hlen : (block.take (i + seps.length)).length = i + seps.length := by
        have hlt : i + seps.length < block.length := by
          by_contra hge
          rw [List.drop_eq_nil_of_le (Nat.le_of_not_lt hge)] at htoken
          cases w <;> cases htoken
        exact List.length_take_of_le (Nat.le_of_lt hlt)
      obtain ⟨block', hstore, htoken', hnext⟩ : ∃ block',
          store block (i + seps.length + w.length) nul = .ok block' ∧
          block'.drop (i + seps.length) = w.map some ++ some nul ::
            (t.map some ++ some nul :: post) ∧
          block'.drop (i + seps.length + w.length + 1) = t.map some ++ some nul :: post := by
        refine ⟨_, ?_, List.drop_left' hlen, ?_⟩
        · conv_lhs => rw [hfront, ← List.append_assoc]
          rw [store_append nul (by rw [List.length_append, hlen, List.length_map]),
            List.append_assoc]
        · rw [Nat.add_assoc (i + seps.length), ← List.drop_drop, List.drop_left' hlen,
            ← List.drop_drop, List.drop_left' (by rw [List.length_map])]
          rfl
      refine .inr ⟨w, t, block', i + seps.length, i + seps.length + w.length + 1, ?_, ?_, htnul, ?_,
        ?_, hnext⟩
      · rw [fields_seps hseps, fields_field hw hc]
      · simp only [List.length_append, List.length_cons]
        omega
      · unfold strtokR
        simp only [hs, deref_some, ok_bind, hspn, hload, hd, if_false, hcspn, hstop, Ne.symm hcnul,
          hstore]
        rfl
      · rw [htoken']
        exact chars_eq hwnul _

end

/-! ## Appending -/

/-- `block[i], block[i + 1], …` are given these values. -/
def storeAll {α : Type} (block : Block α) (i : Nat) : List α → Except Stop (Block α)
  | [] => .ok block
  | x :: xs => do storeAll (← store block i x) (i + 1) xs

/-- `strncat(block, s, n)`, where `s` points to this string. -/
def strncat (block : Block Char) (s : List Char) (n : Nat) : Except Stop (Block Char) := do
  let length := (← chars block).length
  storeAll block length (s.take n ++ [nul])

/-- The block starts with this string and its NUL. -/
def Stores (block : Block Char) (s : List Char) : Prop :=
  nul ∉ s ∧ ∃ post, block = s.map some ++ some nul :: post

/-- On a block of `size` cells `f` appends the text, and runs over the end where there is no
room for it. -/
def Appends (size : Nat) (f : Block Char → Except Stop (Block Char)) (text : List Char) : Prop :=
  ∀ block s, block.length = size → Stores block s →
    (s.length + text.length < size ∧
      ∃ block', f block = .ok block' ∧ block'.length = size ∧ Stores block' (s ++ text)) ∨
    (size ≤ s.length + text.length ∧ f block = .error (.undefined .outOfBounds))

theorem storeAll_append {α : Type} {pre mid post : Block α} {xs : List α} {i : Nat}
    (hi : i = pre.length) (hmid : mid.length = xs.length) :
    storeAll (pre ++ (mid ++ post)) i xs = .ok (pre ++ (xs.map some ++ post)) := by
  induction xs generalizing pre mid i with
  | nil =>
    obtain rfl := List.length_eq_zero_iff.1 hmid
    rfl
  | cons x xs ih =>
    obtain ⟨old, mid, rfl⟩ := List.exists_cons_of_length_eq_add_one hmid
    have hnext : i + 1 = (pre ++ [some x]).length := by
      rw [List.length_append, hi, List.length_singleton]
    have happend : pre ++ some x :: (mid ++ post) = pre ++ [some x] ++ (mid ++ post) := by simp
    rw [List.cons_append, storeAll, store_append x hi, ok_bind, happend,
      ih hnext (by simpa using hmid)]
    simp

theorem storeAll_overflow {α : Type} {block : Block α} {i : Nat} {xs : List α}
    (hi : i ≤ block.length) (h : block.length < i + xs.length) :
    storeAll block i xs = .error (.undefined .outOfBounds) := by
  induction xs generalizing block i with
  | nil =>
    rw [List.length_nil] at h
    omega
  | cons x xs ih =>
    rw [List.length_cons] at h
    rw [storeAll, store]
    by_cases hlt : i < block.length
    · rw [if_pos hlt, ok_bind]
      exact ih (by rw [List.length_set]; omega) (by rw [List.length_set]; omega)
    · rw [if_neg hlt]
      rfl

theorem Stores.length_lt {block : Block Char} {s : List Char} (h : Stores block s) :
    s.length < block.length := by
  obtain ⟨-, post, rfl⟩ := h
  simp

theorem strncat_eq {s : List Char} (hs : nul ∉ s) (post : Block Char) (text : List Char) (n : Nat) :
    strncat (s.map some ++ some nul :: post) text n =
      storeAll (s.map some ++ some nul :: post) s.length (text.take n ++ [nul]) := by
  unfold strncat
  rw [chars_eq hs post]
  rfl

/-- **`strncat` bounded by the size of the whole block** appends the text, or runs over. -/
theorem appends_strncat (size : Nat) {text : List Char} (htext : nul ∉ text) :
    Appends size (fun block => strncat block text size) text := by
  intro block s hsize hstores
  have hlt := hstores.length_lt
  obtain ⟨hs, post, rfl⟩ := hstores
  show _ ∨ _ ∧ strncat (s.map some ++ some nul :: post) text size = _
  by_cases hfits : s.length + text.length < size
  · have htake : text.take size = text := List.take_of_length_le (by omega)
    have hpost : text.length ≤ post.length := by
      simp at hsize
      omega
    have hblock : s.map some ++ some nul :: post =
        s.map some ++ ((some nul :: post.take text.length) ++ post.drop text.length) := by simp
    refine .inl ⟨hfits, s.map some ++ ((text ++ [nul]).map some ++ post.drop text.length), ?_, ?_,
      ?_, post.drop text.length, by simp⟩
    · show strncat (s.map some ++ some nul :: post) text size = _
      rw [strncat_eq hs, htake, hblock, storeAll_append (List.length_map _).symm]
      simp [Nat.min_eq_left hpost]
    · simp at hsize ⊢
      omega
    · rw [List.mem_append, not_or]
      exact ⟨hs, htext⟩
  · refine .inr ⟨by omega, ?_⟩
    rw [strncat_eq hs]
    refine storeAll_overflow (by omega) ?_
    rw [hsize, List.length_append, List.length_take, List.length_singleton]
    omega

theorem appends_nil (size : Nat) : Appends size .ok [] := by
  intro block s hsize hstores
  have hlt := hstores.length_lt
  refine .inl ⟨by simpa [hsize] using hlt, block, rfl, hsize, ?_⟩
  rwa [List.append_nil]

/-- One behind the other. -/
theorem Appends.bind {size : Nat} {f g : Block Char → Except Stop (Block Char)}
    {t u : List Char} (hf : Appends size f t) (hg : Appends size g u) :
    Appends size (fun block => f block >>= g) (t ++ u) := by
  intro block s hsize hstores
  rw [List.length_append]
  rcases hf block s hsize hstores with ⟨-, block', hok, hsize', hstores'⟩ | ⟨hfull, herror⟩
  · rcases hg block' (s ++ t) hsize' hstores' with ⟨hfits, hrest⟩ | ⟨hfull, herror⟩
    · rw [List.length_append] at hfits
      rw [List.append_assoc] at hrest
      refine .inl ⟨by omega, ?_⟩
      simp only [hok, ok_bind]
      exact hrest
    · rw [List.length_append] at hfull
      refine .inr ⟨by omega, ?_⟩
      simp only [hok, ok_bind, herror]
  · refine .inr ⟨by omega, ?_⟩
    simp only [herror]
    rfl

/-- Over a list, one text for each element. -/
theorem appends_foldlM {α : Type} {size : Nat} {f : Block Char → α → Except Stop (Block Char)}
    {text : α → List Char} (hf : ∀ a, Appends size (fun block => f block a) (text a))
    (as : List α) : Appends size (fun block => as.foldlM f block) (as.flatMap text) := by
  induction as with
  | nil => exact appends_nil size
  | cons a as ih => exact (hf a).bind ih

end Cstring
