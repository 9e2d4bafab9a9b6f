import Sprawl.Lib.Heap
import Sprawl.Lib.Simulation
import Sprawl.Pshy.Ends

/-!
# The memory of the shell (`pshy/dynbuf.c`, `pshy/tokenizer.c`)

The same functions with their pointers: what `calloc`, `strdup` and `realloc` give lives at an
address of its own until it is freed, and `realloc` moves what it makes larger.  A buffer
and the tokens follow what they are without pointers (`buffAddAt_follows`,
`tokensFromBuffAt_follows`); `pshy_tokens_free` frees all of the tokens (`tokensFreeAt_spec`),
and `pshy_buff_free` keeps the block of a buffer nothing was added to (`buffFreeAt_spec`).

`calloc` and `strdup` are taken to have room, as without pointers.
-/

namespace Pshy

open Cxx Cstring Fields Loop Heaps Simulation

/-! ## Objects and pointers -/

/-- `struct pshy_buff` -/
structure BuffAt where
  len : UInt64
  cap : UInt64
  data : Option Nat
deriving DecidableEq

/-- `struct pshy_tokens` -/
structure TokensAt where
  len : UInt64
  tokens : Option Nat
deriving DecidableEq

/-- What can live at an address. -/
inductive Object
  | buff (b : BuffAt)
  | chars (block : Block Char)
  | tokens (t : TokensAt)
  | words (block : Block (Option Nat))
deriving DecidableEq

abbrev Mem := Heap Object

/-- The object at a pointer; where nothing lives is outside of every object. -/
def objectAt (m : Mem) (p : Option Nat) : Except Stop Object := do
  match m.cell (← deref p) with
  | some x => .ok x
  | none => .error (.undefined .outOfBounds)

def buffAt (m : Mem) (p : Option Nat) : Except Stop BuffAt := do
  match ← objectAt m p with
  | .buff b => .ok b
  | _ => .error (.undefined .outOfBounds)

def charsAt (m : Mem) (p : Option Nat) : Except Stop (Block Char) := do
  match ← objectAt m p with
  | .chars block => .ok block
  | _ => .error (.undefined .outOfBounds)

def tokensAt (m : Mem) (p : Option Nat) : Except Stop TokensAt := do
  match ← objectAt m p with
  | .tokens t => .ok t
  | _ => .error (.undefined .outOfBounds)

def wordsAt (m : Mem) (p : Option Nat) : Except Stop (Block (Option Nat)) := do
  match ← objectAt m p with
  | .words block => .ok block
  | _ => .error (.undefined .outOfBounds)

/-- `*p = x` -/
def writeAt (m : Mem) (p : Option Nat) (x : Object) : Except Stop Mem := do
  match m.set (← deref p) x with
  | some m => .ok m
  | none => .error (.undefined .outOfBounds)

/-- `free(p)`, which does nothing to the null pointer. -/
def freeAt (m : Mem) : Option Nat → Except Stop Mem
  | none => .ok m
  | some p =>
    match m.free p with
    | some m => .ok m
    | none => .error (.undefined .outOfBounds)

/-! ## The buffer -/

/-- `pshy_buff_create()` -/
def buffCreateAt (m : Mem) : Except Stop (Nat × Mem) := do
  let (buff, m) := m.alloc (.buff { len := 0, cap := 0, data := none })
  let (data, m) := m.alloc (.chars (calloc 64 nul))
  let m ← writeAt m (some buff) (.buff { len := 0, cap := 64, data := some data })
  return (buff, m)

/-- `pshy_buff_free(buff)` -/
def buffFreeAt (m : Mem) (buff : Nat) : Except Stop Mem := do
  let b ← buffAt m (some buff)
  let m ← if b.len > 0 then freeAt m b.data else .ok m
  freeAt m (some buff)

/-- The branch of `pshy_buff_add` that makes room. -/
def buffGrowAt (alloc : Allocator) (m : Mem) (b : BuffAt) : Except Stop (BuffAt × Mem) := do
  let cap := b.cap <<< 1
  match alloc.realloc 1 (← charsAt m b.data) cap.toNat with
  | none => .error .abort
  | some block =>
    let m ← freeAt m b.data
    let (data, m) := m.alloc (.chars block)
    let m ← writeAt m (some data)
      (.chars (← memset block (b.len + 1).toNat nul (cap - b.len - 1).toNat))
    return ({ b with cap, data := some data }, m)

/-- `pshy_buff_add(buff, c)` -/
def buffAddAt (alloc : Allocator) (m : Mem) (buff : Nat) (c : Char) : Except Stop Mem := do
  let b ← buffAt m (some buff)
  let (b, m) ← if b.len + 1 ≥ b.cap then buffGrowAt alloc m b else .ok (b, m)
  let m ← writeAt m b.data (.chars (← store (← charsAt m b.data) b.len.toNat c))
  writeAt m (some buff) (.buff { b with len := b.len + 1 })

/-! ## The tokens -/

/-- The block that `realloc` is given; the null pointer stands for one without cells. -/
def oldWordsAt (m : Mem) : Option Nat → Except Stop (Block (Option Nat))
  | none => .ok []
  | some p => wordsAt m (some p)

/-- `add_item(toks, word)` -/
def addItemAt (alloc : Allocator) (m : Mem) (toks : Nat) (word : Option Nat) :
    Except Stop Mem := do
  let t ← tokensAt m (some toks)
  let len := t.len + 1
  match alloc.realloc 8 (← oldWordsAt m t.tokens) (8 * len).toNat with
  | none => .error .abort
  | some block =>
    let m ← freeAt m t.tokens
    let (tmp, m) := m.alloc (.words block)
    let m ← writeAt m (some tmp) (.words (← store block (len - 1).toNat word))
    writeAt m (some toks) (.tokens { len, tokens := some tmp })

/-- `add_item(toks, strdup(token))`, where `strtok_r` left the copy as `block`. -/
def tokenAt (alloc : Allocator) (m : Mem) (data toks : Nat) (block : Block Char) (token : Nat) :
    Except Stop Mem := do
  let m ← writeAt m (some data) (.chars block)
  let (word, m) := m.alloc (.chars (((← strdup block token) ++ [nul]).map some))
  addItemAt alloc m toks (some word)

/-- The variables of the loop in `pshy_tokens_from_buff`; `data` does not change. -/
structure StateAt where
  mem : Mem
  dataForTok : Option Nat
  save : Option Nat

/-- One turn of it; behind the loop the null pointer is added and the copy freed. -/
def tokensBodyAt (alloc : Allocator) (data toks : Nat) (s : StateAt) :
    Turn StateAt (Except Stop Mem) :=
  match charsAt s.mem (some data) >>= fun block => strtokR block s.dataForTok [' '] s.save with
  | .error e => .done (.error e)
  | .ok (_, none, _) =>
    .done (addItemAt alloc s.mem toks none >>= fun m => freeAt m (some data))
  | .ok (block, some token, save) =>
    match tokenAt alloc s.mem data toks block token with
    | .error e => .done (.error e)
    | .ok mem => .again { mem, dataForTok := none, save }

/-- `pshy_tokens_from_buff(buff)` ends with `r`. -/
def TokensFromBuffAt (alloc : Allocator) (m : Mem) (buff : Nat) (r : Except Stop (Nat × Mem)) :
    Prop :=
  match (do strdup (← charsAt m (← buffAt m (some buff)).data) 0) with
  | .error e => r = .error e
  | .ok copy =>
    let (data, m) := m.alloc (.chars ((copy ++ [nul]).map some))
    let (toks, m) := m.alloc (.tokens { len := 0, tokens := none })
    ∃ r', Returns (tokensBodyAt alloc data toks)
      { mem := m, dataForTok := some 0, save := none } r' ∧ r = r'.map fun m => (toks, m)

/-- A turn of the loop of `pshy_tokens_free`, which reads `toks->len` and `toks->tokens[i]`. -/
def freeTokenAt (toks : Nat) (m : Mem) (i : Nat) : Except Stop Mem := do
  let t ← tokensAt m (some toks)
  if i < t.len.toNat then
    let block ← wordsAt m t.tokens
    freeAt m (← load block i)
  else return m

/-- `pshy_tokens_free(toks)`; `free` leaves the other blocks as they are, so no turn changes how
many there are. -/
def tokensFreeAt (m : Mem) (toks : Nat) : Except Stop Mem := do
  let t ← tokensAt m (some toks)
  let m ← (List.range t.len.toNat).foldlM (freeTokenAt toks) m
  let t ← tokensAt m (some toks)
  let m ← freeAt m t.tokens
  freeAt m (some toks)

/-- The string at a pointer of the array. -/
def stringAt (m : Mem) : Option Nat → Except Stop Str
  | none => .ok none
  | some p => do return some (← strdup (← charsAt m (some p)) 0)

/-- The array and the strings behind its pointers. -/
def tokensGetAt (m : Mem) (toks : Nat) : Except Stop Tokens := do
  let t ← tokensAt m (some toks)
  let block ← wordsAt m t.tokens
  let tokens ← (List.range t.len.toNat).mapM fun i => do stringAt m (← load block i)
  return { len := t.len, tokens := tokens.map some }

/-! ## A line -/

/-- `while ((rc = getc(instream)))` -/
def readLineAt (alloc : Allocator) (m : Mem) (buff : Nat) :
    List Char → Except Stop (Mem × List Char)
  | [] => .ok (m, [])
  | c :: input => do
    if c = nul then return (m, input)
    if c = eof then return (m, input)
    if isDelimiter c then return (m, input)
    readLineAt alloc (← buffAddAt alloc m buff c) buff input

/-! ## The accesses -/

section
variable {m₀ m : Mem} {own : List (Nat × Object)} {p : Nat}

theorem objectAt_of (H : Owns m₀ m own) {x : Object} (hmem : (p, x) ∈ own) :
    objectAt m (some p) = .ok x := by
  unfold objectAt
  rw [deref_some, ok_bind, H.get hmem]

theorem buffAt_of (H : Owns m₀ m own) {b : BuffAt} (hmem : (p, .buff b) ∈ own) :
    buffAt m (some p) = .ok b := by
  unfold buffAt
  rw [objectAt_of H hmem]
  rfl

theorem charsAt_of (H : Owns m₀ m own) {block : Block Char} (hmem : (p, .chars block) ∈ own) :
    charsAt m (some p) = .ok block := by
  unfold charsAt
  rw [objectAt_of H hmem]
  rfl

theorem tokensAt_of (H : Owns m₀ m own) {t : TokensAt} (hmem : (p, .tokens t) ∈ own) :
    tokensAt m (some p) = .ok t := by
  unfold tokensAt
  rw [objectAt_of H hmem]
  rfl

theorem wordsAt_of (H : Owns m₀ m own) {block : Block (Option Nat)}
    (hmem : (p, .words block) ∈ own) : wordsAt m (some p) = .ok block := by
  unfold wordsAt
  rw [objectAt_of H hmem]
  rfl

theorem writeAt_of {x : Object} (H : Owns m₀ m ((p, x) :: own)) (y : Object) :
    ∃ m', writeAt m (some p) y = .ok m' ∧ Owns m₀ m' ((p, y) :: own) := by
  obtain ⟨m', hset, H'⟩ := H.set y
  refine ⟨m', ?_, H'⟩
  unfold writeAt
  rw [deref_some, ok_bind, hset]

theorem freeAt_of {x : Object} (H : Owns m₀ m ((p, x) :: own)) :
    ∃ m', freeAt m (some p) = .ok m' ∧ Owns m₀ m' own := by
  obtain ⟨m', hfree, H'⟩ := H.free
  refine ⟨m', ?_, H'⟩
  show (match m.free p with | some m => _ | none => _) = _
  rw [hfree]

theorem alloc_of (H : Owns m₀ m own) (x : Object) :
    ∃ p m', m.alloc x = (p, m') ∧ Owns m₀ m' ((p, x) :: own) := ⟨_, _, rfl, H.alloc x⟩

end

/-! ## The buffer -/

/-- A buffer in memory. -/
def buffOwns (p data : Nat) (buff : Buff) : List (Nat × Object) :=
  [(data, .chars buff.data), (p, .buff { len := buff.len, cap := buff.cap, data := some data })]

section
variable {m₀ m : Mem} {p data : Nat} {buff : Buff}

theorem buffCreateAt_spec (m : Mem) :
    ∃ p data m', buffCreateAt m = .ok (p, m') ∧ Owns m m' (buffOwns p data buffCreate) := by
  obtain ⟨p, m₁, hbuff, H₁⟩ := alloc_of (Owns.refl m) (.buff { len := 0, cap := 0, data := none })
  obtain ⟨data, m₂, hdata, H₂⟩ := alloc_of H₁ (.chars (calloc 64 nul))
  obtain ⟨m₃, hwrite, H₃⟩ := writeAt_of (H₂.perm (List.Perm.swap _ _ _))
    (.buff { len := 0, cap := 64, data := some data })
  refine ⟨p, data, m₃, ?_, H₃.perm (List.Perm.swap _ _ _)⟩
  unfold buffCreateAt
  simp only [hbuff, hdata, hwrite]
  rfl

/-- A buffer is freed; its block is not, if nothing was added. -/
theorem buffFreeAt_spec (H : Owns m₀ m (buffOwns p data buff)) :
    ∃ m', buffFreeAt m p = .ok m' ∧
      Owns m₀ m' (if buff.len = 0 then [(data, .chars buff.data)] else []) := by
  have hbuff := buffAt_of (p := p) H (List.mem_cons_of_mem _ List.mem_cons_self)
  unfold buffFreeAt
  rw [hbuff, ok_bind]
  by_cases hlen : buff.len = 0
  · obtain ⟨m', hfree, H'⟩ := freeAt_of (H.perm (List.Perm.swap _ _ _))
    rw [if_pos hlen]
    refine ⟨m', ?_, H'⟩
    rw [hlen]
    exact hfree
  · obtain ⟨m₁, hfree₁, H₁⟩ := freeAt_of H
    obtain ⟨m₂, hfree₂, H₂⟩ := freeAt_of H₁
    rw [if_neg hlen]
    refine ⟨m₂, ?_, H₂⟩
    have hpos : buff.len > 0 := UInt64.pos_iff_ne_zero.2 hlen
    simp only [if_pos hpos, hfree₁, ok_bind, hfree₂]

/-- The header while a larger block is made. -/
def grownOwns (m₀ : Mem) (p : Nat) (b : BuffAt) (buff : Buff) (r : BuffAt × Mem) : Prop :=
  ∃ data, r.1 = { len := buff.len, cap := buff.cap, data := some data } ∧
    Owns m₀ r.2 [(data, .chars buff.data), (p, .buff b)]

theorem buffGrowAt_follows (alloc : Allocator) {b : BuffAt}
    (H : Owns m₀ m [(data, .chars buff.data), (p, .buff b)]) :
    Follows (grownOwns m₀ p b) (buffGrow alloc buff)
      (buffGrowAt alloc m { len := buff.len, cap := buff.cap, data := some data }) := by
  have hchars := charsAt_of (p := data) H List.mem_cons_self
  obtain ⟨m₁, hfree, H₁⟩ := freeAt_of H
  unfold buffGrow buffGrowAt
  simp only [hchars, ok_bind]
  cases alloc.realloc 1 buff.data (buff.cap <<< 1).toNat with
  | none => exact Follows.error _
  | some block =>
    obtain ⟨data', m₂, halloc, H₂⟩ := alloc_of H₁ (.chars block)
    simp only [hfree, ok_bind, halloc]
    refine Follows.same _ fun block' _ => ?_
    obtain ⟨m₃, hwrite, H₃⟩ := writeAt_of H₂ (.chars block')
    simp only [hwrite, ok_bind]
    exact Follows.ok ⟨data', rfl, H₃⟩

/-- The character is stored, and the header written. -/
theorem storeAt_follows {b : BuffAt} (H : Owns m₀ m [(data, .chars buff.data), (p, .buff b)])
    (c : Char) :
    Follows (fun buff m => ∃ data, Owns m₀ m (buffOwns p data buff))
      (do
        let data ← store buff.data buff.len.toNat c
        return { buff with data, len := buff.len + 1 })
      (do
        let m ← writeAt m (some data)
          (.chars (← store (← charsAt m (some data)) buff.len.toNat c))
        writeAt m (some p)
          (.buff { len := buff.len + 1, cap := buff.cap, data := some data })) := by
  have hchars := charsAt_of (p := data) H List.mem_cons_self
  simp only [hchars, ok_bind]
  refine Follows.same _ fun block _ => ?_
  obtain ⟨m₁, hwrite₁, H₁⟩ := writeAt_of H (.chars block)
  obtain ⟨m₂, hwrite₂, H₂⟩ := writeAt_of (H₁.perm (List.Perm.swap _ _ _))
    (.buff { len := buff.len + 1, cap := buff.cap, data := some data })
  simp only [hwrite₁, ok_bind, hwrite₂]
  exact Follows.ok ⟨data, H₂.perm (List.Perm.swap _ _ _)⟩

/-- **A character is added as without pointers.** -/
theorem buffAddAt_follows (alloc : Allocator) (H : Owns m₀ m (buffOwns p data buff)) (c : Char) :
    Follows (fun buff m => ∃ data, Owns m₀ m (buffOwns p data buff)) (buffAdd alloc buff c)
      (buffAddAt alloc m p c) := by
  have hbuff := buffAt_of (p := p) H (List.mem_cons_of_mem _ List.mem_cons_self)
  unfold buffAdd buffAddAt
  rw [hbuff, ok_bind]
  by_cases hroom : buff.len + 1 ≥ buff.cap
  · simp only [if_pos hroom]
    refine Follows.bind (buffGrowAt_follows alloc H) fun grown r hr => ?_
    obtain ⟨b, m'⟩ := r
    obtain ⟨data', rfl, H'⟩ := hr
    exact storeAt_follows H' c
  · simp only [if_neg hroom]
    exact storeAt_follows H c

/-- **A line is read as without pointers.** -/
theorem readLineAt_follows (alloc : Allocator) (H : Owns m₀ m (buffOwns p data buff))
    (input : List Char) :
    Follows (fun r r' => r'.2 = r.2 ∧ ∃ data, Owns m₀ r'.1 (buffOwns p data r.1))
      (readLine alloc buff input) (readLineAt alloc m p input) := by
  induction input generalizing m data buff with
  | nil => exact Follows.ok ⟨rfl, data, H⟩
  | cons c input ih =>
    unfold readLine readLineAt
    by_cases hnul : c = nul
    · simp only [if_pos hnul]
      exact Follows.ok ⟨rfl, data, H⟩
    · by_cases heof : c = eof
      · simp only [if_neg hnul, if_pos heof]
        exact Follows.ok ⟨rfl, data, H⟩
      · by_cases hdelim : isDelimiter c = true
        · simp only [if_neg hnul, if_neg heof, if_pos hdelim]
          exact Follows.ok ⟨rfl, data, H⟩
        · simp only [if_neg hnul, if_neg heof, if_neg hdelim]
          refine Follows.bind (buffAddAt_follows alloc H c) fun buff' m' hbuff' => ?_
          obtain ⟨data', H'⟩ := hbuff'
          exact ih H'

end

/-! ## The tokens -/

/-- The memory behind a `char*`: null, or a string of its own at an address. -/
abbrev Word := Option (Nat × List Char)

/-- The strings in memory. -/
def stringOwns (words : List Word) : List (Nat × Object) :=
  words.reduceOption.map fun q => (q.1, .chars ((q.2 ++ [nul]).map some))

/-- The header at `p`, and the array if there is one. -/
def arrayOwns (p : Nat) (len : UInt64) (array : Option Nat) (words : List Word) :
    List (Nat × Object) :=
  (p, .tokens { len, tokens := array }) ::
    array.toList.map fun a => (a, .words ((words.map fun w => w.map Prod.fst).map some))

theorem stringOwns_append (words words' : List Word) :
    stringOwns (words ++ words') = stringOwns words ++ stringOwns words' := by
  unfold stringOwns
  rw [List.reduceOption_append, List.map_append]

/-- The value of an array of pointers: their strings. -/
structure Spells (toks : Tokens) (words : List Word) : Prop where
  lists : Lists toks (words.map fun w => w.map Prod.snd)
  short : words.length < 2 ^ 60
  noNul : ∀ q ∈ words.reduceOption, nul ∉ q.2

/-- Tokens in memory, behind the first item. -/
def TokensIn (m₀ m : Mem) (p : Nat) (toks : Tokens) (more : List (Nat × Object)) : Prop :=
  ∃ a words, Spells toks words ∧
    Owns m₀ m (arrayOwns p toks.len (some a) words ++ (stringOwns words ++ more))

/-- One cell more, of any kind. -/
theorem realloc_push {α : Type} (alloc : Allocator) (len : UInt64) (xs : List α)
    (hlen : xs.length < 2 ^ 60) (hcount : len.toNat = xs.length) :
    alloc.realloc 8 (xs.map some) (8 * (len + 1)).toNat =
      if alloc.gives (8 * (xs.length + 1)) then some (xs.map some ++ [none]) else none := by
  have hnext : (len + 1).toNat = xs.length + 1 := by
    rw [UInt64.toNat_add, hcount]
    show (xs.length + 1) % 2 ^ 64 = _
    omega
  have hbytes : (8 * (len + 1)).toNat = 8 * (xs.length + 1) := by
    rw [UInt64.toNat_mul, hnext]
    show 8 * (xs.length + 1) % 2 ^ 64 = _
    omega
  have hone : xs.length + 1 - xs.length = 1 := by omega
  unfold Allocator.realloc
  rw [hbytes, Nat.mul_div_cancel_left _ (show 0 < 8 by decide), List.length_map, hone,
    List.take_of_length_le (by rw [List.length_map]; omega)]
  rfl

theorem store_push {α : Type} (len : UInt64) (xs : List α) (x : α)
    (hcount : len.toNat = xs.length) :
    store (xs.map some ++ [none]) (len + 1 - 1).toNat x = .ok ((xs ++ [x]).map some) := by
  rw [UInt64.add_sub_cancel, store_append x (by rw [hcount, List.length_map]), List.map_append]
  rfl

section
variable {m₀ m : Mem} {p : Nat} {toks : Tokens} {words : List Word} {more : List (Nat × Object)}

/-- The array that `add_item` is given, and `free` of it. -/
theorem oldArray_of {array : Option Nat} {len : UInt64} (hnone : array = none → words = [])
    (H : Owns m₀ m (arrayOwns p len array words ++ more)) :
    oldWordsAt m array = .ok ((words.map fun w => w.map Prod.fst).map some) ∧
      ∃ m', freeAt m array = .ok m' ∧
        Owns m₀ m' ((p, .tokens { len, tokens := array }) :: more) := by
  cases array with
  | none =>
    rw [hnone rfl]
    exact ⟨rfl, m, rfl, H⟩
  | some a =>
    obtain ⟨m', hfree, H'⟩ := freeAt_of (H.perm (List.Perm.swap _ _ _))
    exact ⟨wordsAt_of H (List.mem_cons_of_mem _ List.mem_cons_self), m', hfree, H'⟩

theorem Spells.push (h : Spells toks words) {word : Word} (hword : ∀ q ∈ word, nul ∉ q.2)
    (hshort : words.length + 1 < 2 ^ 60) :
    Spells
      { len := toks.len + 1
        tokens := ((words ++ [word]).map fun w => w.map Prod.snd).map some }
      (words ++ [word]) := by
  obtain ⟨⟨hcount, -⟩, -, hnul⟩ := h
  refine ⟨⟨?_, rfl⟩, ?_, ?_⟩
  · rw [List.length_map] at hcount
    rw [List.length_map, List.length_append, List.length_singleton]
    show (toks.len + 1).toNat = _
    rw [UInt64.toNat_add, hcount]
    show (words.length + 1) % 2 ^ 64 = _
    omega
  · rw [List.length_append, List.length_singleton]
    exact hshort
  · intro q hq
    rw [List.reduceOption_append, List.mem_append] at hq
    rcases hq with hq | hq
    · exact hnul q hq
    · refine hword q ?_
      rwa [List.reduceOption_mem_iff, List.mem_singleton, eq_comm] at hq

/-- **An item is added as without pointers**, when its string is there. -/
theorem addItemAt_follows (alloc : Allocator) {array : Option Nat} (word : Word)
    (hnone : array = none → words = []) (hspells : Spells toks words)
    (hword : ∀ q ∈ word, nul ∉ q.2)
    (H : Owns m₀ m (arrayOwns p toks.len array words ++ (stringOwns (words ++ [word]) ++ more))) :
    Follows (fun toks m => ∃ a, Spells toks (words ++ [word]) ∧
        Owns m₀ m (arrayOwns p toks.len (some a) (words ++ [word]) ++
          (stringOwns (words ++ [word]) ++ more)))
      (addItem alloc toks (word.map Prod.snd)) (addItemAt alloc m p (word.map Prod.fst)) := by
  obtain ⟨hcount, htokens⟩ := hspells.lists
  have hshort := hspells.short
  rw [List.length_map] at hcount
  have hheader : tokensAt m (some p) = .ok { len := toks.len, tokens := array } :=
    tokensAt_of H List.mem_cons_self
  obtain ⟨hold, m₁, hfree, H₁⟩ := oldArray_of hnone H
  have hvalue := realloc_push alloc toks.len (words.map fun w => w.map Prod.snd)
    (by rwa [List.length_map]) (by rwa [List.length_map])
  have hptr := realloc_push alloc toks.len (words.map fun w => w.map Prod.fst)
    (by rwa [List.length_map]) (by rwa [List.length_map])
  have hvalue' := store_push toks.len (words.map fun w => w.map Prod.snd) (word.map Prod.snd)
    (by rwa [List.length_map])
  have hptr' := store_push toks.len (words.map fun w => w.map Prod.fst) (word.map Prod.fst)
    (by rwa [List.length_map])
  unfold addItem addItemAt
  simp only [hheader, ok_bind, hold, htokens, hvalue, hptr, List.length_map]
  cases hgives : alloc.gives (8 * (words.length + 1)) with
  | false => exact Follows.error _
  | true =>
    have hroom : words.length + 1 < 2 ^ 60 := by
      have hbelow := alloc.below _ hgives
      omega
    obtain ⟨tmp, m₂, halloc, H₂⟩ :=
      alloc_of H₁ (.words ((words.map fun w => w.map Prod.fst).map some ++ [none]))
    obtain ⟨m₃, hwrite₃, H₃⟩ := writeAt_of H₂
      (.words (((words ++ [word]).map fun w => w.map Prod.fst).map some))
    obtain ⟨m₄, hwrite₄, H₄⟩ := writeAt_of (H₃.perm (List.Perm.swap _ _ _))
      (.tokens { len := toks.len + 1, tokens := some tmp })
    rw [← List.map_singleton, ← List.map_append] at hvalue' hptr'
    simp only [if_true, hvalue', hptr', hfree, halloc, ok_bind, hwrite₃, hwrite₄]
    exact Follows.ok ⟨tmp, hspells.push hword hroom, H₄⟩

/-- The loop with and without pointers. -/
def LoopIn (m₀ : Mem) (p data : Nat) (more : List (Nat × Object)) (s : State) (t : StateAt) :
    Prop :=
  t.dataForTok = s.dataForTok ∧ t.save = s.save ∧
    ∃ array words, (array = none → words = []) ∧ Spells s.toks words ∧
      Owns m₀ t.mem (arrayOwns p s.toks.len array words ++
        (stringOwns words ++ (data, .chars s.data) :: more))

/-- A token is copied, and the copy added. -/
theorem tokenAt_follows (alloc : Allocator) {data : Nat} {old : Block Char} (block : Block Char)
    {array : Option Nat} (hnone : array = none → words = []) (hspells : Spells toks words)
    (H : Owns m₀ m (arrayOwns p toks.len array words ++
      (stringOwns words ++ (data, .chars old) :: more))) (token : Nat) (save : Option Nat) :
    Follows (fun toks m => LoopIn m₀ p data more { data := block, dataForTok := none, save, toks }
        { mem := m, dataForTok := none, save })
      (strdup block token >>= fun word => addItem alloc toks (some word))
      (tokenAt alloc m data p block token) := by
  rw [← List.append_assoc] at H
  obtain ⟨m₁, hwrite, H₁⟩ := writeAt_of (H.perm List.perm_middle) (.chars block)
  unfold tokenAt
  rw [hwrite, ok_bind]
  refine Follows.same _ fun word hword => ?_
  obtain ⟨w, m₂, halloc, H₂⟩ := alloc_of H₁ (.chars ((word ++ [nul]).map some))
  simp only [halloc]
  have hstring : stringOwns (words ++ [some (w, word)]) =
      stringOwns words ++ [(w, .chars ((word ++ [nul]).map some))] := stringOwns_append _ _
  have H₃ : Owns m₀ m₂ (arrayOwns p toks.len array words ++
      (stringOwns (words ++ [some (w, word)]) ++ (data, .chars block) :: more)) := by
    rw [hstring, List.append_assoc, List.singleton_append, ← List.append_assoc]
    exact H₂.perm (List.perm_middle.trans (List.perm_middle.cons _)).symm
  have hnul : nul ∉ word := nul_notMem_of_chars hword
  have hadd := addItemAt_follows alloc (some (w, word)) hnone hspells
    (fun q hq => by cases hq; exact hnul) H₃
  rw [← bind_pure (addItem _ _ _), ← bind_pure (addItemAt _ _ _ _)]
  refine Follows.bind hadd fun toks m hm => ?_
  obtain ⟨a, hspells', H'⟩ := hm
  exact Follows.ok ⟨rfl, rfl, some a, _, nofun, hspells', H'⟩

/-- **A turn does what it does without pointers.** -/
theorem tokensBodyAt_follows (alloc : Allocator) {data : Nat} {s : State} {t : StateAt}
    (h : LoopIn m₀ p data more s t) :
    TurnFollows (LoopIn m₀ p data more)
      (Follows fun toks m => TokensIn m₀ m p toks more)
      (tokensBody alloc s) (tokensBodyAt alloc data p t) := by
  obtain ⟨hfor, hsave, array, words, hnone, hspells, H⟩ := h
  have hchars : charsAt t.mem (some data) = .ok s.data := charsAt_of H (by simp)
  unfold tokensBody tokensBodyAt
  rw [hchars, ok_bind, hfor, hsave]
  cases strtokR s.data s.dataForTok [' '] s.save with
  | error e => exact TurnFollows.done (Follows.error e)
  | ok r =>
    obtain ⟨block, token, save⟩ := r
    cases token with
    | none =>
      -- the null pointer is added, and the copy freed
      refine TurnFollows.done ?_
      have hnull : stringOwns (words ++ [none]) = stringOwns words := by
        rw [stringOwns_append]
        exact List.append_nil _
      have hadd := addItemAt_follows alloc none hnone hspells nofun (by rwa [hnull])
      rw [← bind_pure (addItem alloc s.toks none)]
      refine Follows.bind hadd fun toks m hm => ?_
      obtain ⟨a, hspells', H'⟩ := hm
      rw [← List.append_assoc] at H'
      obtain ⟨m', hfree, H''⟩ := freeAt_of (H'.perm List.perm_middle)
      rw [hfree]
      exact Follows.ok ⟨a, _, hspells', by rwa [← List.append_assoc]⟩
    | some token =>
      have hcall := tokenAt_follows alloc block hnone hspells H token save
      cases hvalue : strdup block token >>= fun word => addItem alloc s.toks (some word) with
      | error e =>
        rw [hvalue] at hcall
        simp only [hvalue, hcall.of_error]
        exact TurnFollows.done (Follows.error e)
      | ok toks =>
        rw [hvalue] at hcall
        obtain ⟨m', hptr, hm'⟩ := hcall.of_ok
        simp only [hvalue, hptr]
        exact TurnFollows.again hm'

/-- **The words of a buffer are taken as without pointers.** -/
theorem tokensFromBuffAt_follows (alloc : Allocator) {q data : Nat} {buff : Buff}
    (H : Owns m₀ m (buffOwns q data buff)) {r : Except Stop Tokens}
    (h : TokensFromBuff alloc buff r) :
    ∃ r', TokensFromBuffAt alloc m q r' ∧
      Follows (fun toks r' => TokensIn m₀ r'.2 r'.1 toks (buffOwns q data buff)) r r' := by
  have hbuff := buffAt_of (p := q) H (List.mem_cons_of_mem _ List.mem_cons_self)
  have hchars := charsAt_of (p := data) H List.mem_cons_self
  unfold TokensFromBuff at h
  unfold TokensFromBuffAt
  rw [hbuff, ok_bind, hchars, ok_bind]
  cases hdup : strdup buff.data 0 with
  | error e =>
    rw [hdup] at h
    rw [h]
    exact ⟨_, rfl, Follows.error e⟩
  | ok copy =>
    rw [hdup] at h
    obtain ⟨copied, m₁, hcopy, H₁⟩ := alloc_of H (.chars ((copy ++ [nul]).map some))
    obtain ⟨toks, m₂, htoks, H₂⟩ := alloc_of H₁ (.tokens { len := 0, tokens := none })
    have hloop : LoopIn m₀ toks copied (buffOwns q data buff)
        { data := (copy ++ [nul]).map some, dataForTok := some 0, save := none,
          toks := tokensCreate }
        { mem := m₂, dataForTok := some 0, save := none } :=
      ⟨rfl, rfl, none, [], fun _ => rfl, ⟨tokensCreate_lists, by decide, nofun⟩, H₂⟩
    obtain ⟨r', hret, hr'⟩ := returns_simulates (fun s t h => tokensBodyAt_follows alloc h) hloop h
    simp only [hcopy, htoks]
    refine ⟨_, ⟨r', hret, rfl⟩, ?_⟩
    cases r with
    | error e =>
      rw [hr'.of_error]
      exact Follows.error e
    | ok x =>
      obtain ⟨m', rfl, hm'⟩ := hr'.of_ok
      exact Follows.ok hm'

/-- The strings behind the pointers. -/
theorem mapM_stringAt {own : List (Nat × Object)} (H : Owns m₀ m own)
    (hown : ∀ x ∈ stringOwns words, x ∈ own) (hnul : ∀ q ∈ words.reduceOption, nul ∉ q.2) :
    (words.map fun w => w.map Prod.fst).mapM (stringAt m) =
      .ok (words.map fun w => w.map Prod.snd) := by
  induction words with
  | nil => rfl
  | cons word words ih =>
    have htail : ∀ x ∈ stringOwns words, x ∈ own := by
      intro x hx
      refine hown x ?_
      rw [← List.singleton_append, stringOwns_append]
      exact List.mem_append_right _ hx
    have hnul' : ∀ q ∈ words.reduceOption, nul ∉ q.2 := by
      intro q hq
      refine hnul q ?_
      rw [List.reduceOption_mem_iff] at hq ⊢
      exact List.mem_cons_of_mem _ hq
    have hhead : stringAt m (word.map Prod.fst) = .ok (word.map Prod.snd) := by
      cases word with
      | none => rfl
      | some q =>
        obtain ⟨a, w⟩ := q
        have hchars : charsAt m (some a) = .ok ((w ++ [nul]).map some) :=
          charsAt_of H (hown _ (List.mem_cons_self))
        have hdup : strdup ((w ++ [nul]).map some) 0 = .ok w := by
          rw [List.map_append]
          exact chars_eq (hnul _ List.mem_cons_self) []
        show (do return some (← strdup (← charsAt m (some a)) 0)) = _
        rw [hchars, ok_bind, hdup]
        rfl
    rw [List.map_cons, List.map_cons, List.mapM_cons, hhead, ok_bind, ih htail hnul']
    rfl

/-- The array and the header of tokens behind the first item. -/
theorem TokensIn.reads (h : TokensIn m₀ m p toks more) :
    ∃ a words, tokensAt m (some p) = .ok { len := toks.len, tokens := some a } ∧
      wordsAt m (some a) = .ok ((words.map fun w : Word => w.map Prod.fst).map some) ∧
      toks.len.toNat = words.length ∧ toks.tokens = (words.map fun w => w.map Prod.snd).map some ∧
      (∀ q ∈ words.reduceOption, nul ∉ q.2) ∧
      Owns m₀ m (arrayOwns p toks.len (some a) words ++ (stringOwns words ++ more)) := by
  obtain ⟨a, words, ⟨⟨hcount, htokens⟩, -, hnul⟩, H⟩ := h
  rw [List.length_map] at hcount
  exact ⟨a, words, tokensAt_of H List.mem_cons_self,
    wordsAt_of H (List.mem_cons_of_mem _ List.mem_cons_self), hcount, htokens, hnul, H⟩

theorem tokensGetAt_eq (h : TokensIn m₀ m p toks more) : tokensGetAt m p = .ok toks := by
  obtain ⟨a, words, hheader, harray, hcount, htokens, hnul, H⟩ := h.reads
  have hall := mapM_stringAt H (fun x hx => by simp [hx]) hnul
  have hload := mapM_load (stringAt m) (words.map fun w => w.map Prod.fst)
  rw [List.length_map, ← hcount, hall] at hload
  unfold tokensGetAt
  rw [hheader, ok_bind]
  simp only [harray, ok_bind, hload]
  show Except.ok (Tokens.mk toks.len _) = _
  rw [← htokens]

/-- One string is freed. -/
theorem freeTokenAt_spec {a : Nat} {len : UInt64} {done left : List Word} {word : Word}
    (hcount : len.toNat = (done ++ word :: left).length)
    (H : Owns m₀ m (stringOwns (word :: left) ++
      (arrayOwns p len (some a) (done ++ word :: left) ++ more))) :
    ∃ m', freeTokenAt p m done.length = .ok m' ∧ Owns m₀ m' (stringOwns left ++
      (arrayOwns p len (some a) (done ++ word :: left) ++ more)) := by
  have hheader : tokensAt m (some p) = .ok { len, tokens := some a } :=
    tokensAt_of H (List.mem_append_right _ List.mem_cons_self)
  have harray : wordsAt m (some a) =
      .ok (((done ++ word :: left).map fun w => w.map Prod.fst).map some) :=
    wordsAt_of H (List.mem_append_right _ (List.mem_cons_of_mem _ List.mem_cons_self))
  have hload : load (((done ++ word :: left).map fun w => w.map Prod.fst).map some) done.length =
      .ok (word.map Prod.fst) := by
    rw [List.map_append, List.map_cons]
    exact load_map_some _ _ _ (List.length_map _).symm
  have hlt : done.length < len.toNat := by
    rw [hcount, List.length_append, List.length_cons]
    omega
  have hfree : ∃ m', freeAt m (word.map Prod.fst) = .ok m' ∧ Owns m₀ m' (stringOwns left ++
      (arrayOwns p len (some a) (done ++ word :: left) ++ more)) := by
    cases word with
    | none => exact ⟨m, rfl, H⟩
    | some q => exact freeAt_of H
  obtain ⟨m', hm', H'⟩ := hfree
  refine ⟨m', ?_, H'⟩
  unfold freeTokenAt
  rw [hheader, ok_bind]
  show (if done.length < len.toNat then _ else _) = _
  rw [if_pos hlt]
  simp only [harray, ok_bind, hload]
  exact hm'

/-- The strings from `done` on are freed. -/
theorem foldlM_freeTokenAt {a : Nat} {len : UInt64} {done left : List Word}
    (hcount : len.toNat = (done ++ left).length)
    (H : Owns m₀ m (stringOwns left ++ (arrayOwns p len (some a) (done ++ left) ++ more))) :
    ∃ m', (List.range' done.length left.length).foldlM (freeTokenAt p) m = .ok m' ∧
      Owns m₀ m' (arrayOwns p len (some a) (done ++ left) ++ more) := by
  induction left generalizing m done with
  | nil => exact ⟨m, rfl, H⟩
  | cons word left ih =>
    obtain ⟨m₁, hfree, H₁⟩ := freeTokenAt_spec hcount H
    rw [List.append_cons] at hcount H₁
    obtain ⟨m₂, hrest, H₂⟩ := ih hcount H₁
    rw [← List.append_cons] at H₂
    refine ⟨m₂, ?_, H₂⟩
    rw [List.length_append, List.length_singleton] at hrest
    rw [List.length_cons, List.range'_succ, List.foldlM_cons, hfree, ok_bind]
    exact hrest

/-- **Tokens are freed with their strings.** -/
theorem tokensFreeAt_spec (h : TokensIn m₀ m p toks more) :
    ∃ m', tokensFreeAt m p = .ok m' ∧ Owns m₀ m' more := by
  obtain ⟨a, words, hheader, -, hcount, -, -, H⟩ := h.reads
  have hstrings : Owns m₀ m
      (stringOwns words ++ (arrayOwns p toks.len (some a) ([] ++ words) ++ more)) := by
    rw [← List.append_assoc] at H ⊢
    exact H.perm (List.perm_append_comm.append_right more)
  have hall : toks.len.toNat = ([] ++ words).length := hcount
  obtain ⟨m₁, hfree₁, H₁⟩ := foldlM_freeTokenAt hall hstrings
  have hheader₁ : tokensAt m₁ (some p) = .ok { len := toks.len, tokens := some a } :=
    tokensAt_of H₁ List.mem_cons_self
  obtain ⟨m₂, hfree₂, H₂⟩ := freeAt_of (H₁.perm (List.Perm.swap _ _ _))
  obtain ⟨m₃, hfree₃, H₃⟩ := freeAt_of H₂
  refine ⟨m₃, ?_, H₃⟩
  rw [List.length_nil, ← List.range_eq_range', ← hcount] at hfree₁
  unfold tokensFreeAt
  rw [hheader, ok_bind]
  simp only [hfree₁, hheader₁, ok_bind, hfree₂, hfree₃]

end

end Pshy
