import Sprawl.Lib.Cxx
import Sprawl.Lib.LittleEndian

/-!
# UUIDs (`uuid/uuid.cc`)

A `UUID` is two words.  `string` prints them in hex, 16 digits each, and inserts four
hyphens; `fromString` makes three checks (alphabet, length, hyphens) and then reads two
characters a step, hyphens skipped, into the first word and from the eighth byte on into
the second.

Between text and words stand the digits (`Groups`: 8, 4, 4, 4 and 12 of them):

    fromString g.text = .ok ⟨.name, g.words⟩        (fromString_text)
    UUID.string ⟨method, g.words⟩ = .ok g.text      (string_words)

and every pair of words, and every text in canonical form, has its digits.  So the two
functions are inverse (`string_fromString`).  The checks do not exclude a fifth hyphen:
`fromString_contract_iff` says for which texts `fromString` does what it should.
-/

namespace Uuid

open Cxx

inductive Method
  | time
  | name
  | rand
  | nil
deriving DecidableEq, Repr

/-- `std::array<std::uint64_t, 2>`. -/
structure Raw where
  first : UInt64
  second : UInt64
deriving DecidableEq

structure UUID where
  method : Method
  uuid : Raw
deriving DecidableEq

/-- Why a call does not return. -/
inductive Failure
  | runtimeError (what : List Char)
  | invalidArgument
  | outOfRange
  | undefined (what : Undefined)
deriving DecidableEq

def UUID.raw (u : UUID) : Raw := u.uuid

/-- `arr[idx] = f(arr[idx])`. -/
def Raw.modify (arr : Raw) (idx : Nat) (f : UInt64 → UInt64) : Raw :=
  if idx = 0 then { arr with first := f arr.first } else { arr with second := f arr.second }

/-- `arr[idx] <<= 8; arr[idx] |= value`. -/
def shiftIn (value : UInt8) (word : UInt64) : UInt64 := (word <<< 8) ||| value.toUInt64

/-- The loop of `FromString`, from the iterator on. -/
def readPairs (count : Nat) (arr : Raw) : List Char → Except Failure Raw
  | [] => .ok arr
  | c :: rest =>
    if c = '-' then readPairs count arr rest
    else
      match rest with
      -- the second character of the pair is read behind the end
      | [] => .error (.undefined .outOfBounds)
      | d :: rest =>
        match stoull 16 [c, d] with
        | .ok value =>
          let idx := if count ≥ 8 then 1 else 0
          readPairs (count + 1) (arr.modify idx (shiftIn value.toUInt8)) rest
        | .error .invalidArgument => .error .invalidArgument
        | .error .outOfRange => .error .outOfRange

/-- `"0123456789abcdef-"`. -/
def alphabet : List Char := "0123456789abcdef-".toList

def fromString (str : List Char) : Except Failure UUID :=
  if ¬ ∀ c ∈ str, c ∈ alphabet then
    .error (.runtimeError ("non uuid character in: ".toList ++ str))
  else if str.length ≠ 36 then .error (.runtimeError ("malformed uuid: ".toList ++ str))
  else if str[8]? ≠ some '-' ∨ str[13]? ≠ some '-' ∨ str[18]? ≠ some '-' ∨ str[23]? ≠ some '-' then
    .error (.runtimeError ("malformed uuid (check hyphens): ".toList ++ str))
  else (readPairs 0 ⟨0, 0⟩ str).map fun arr => ⟨.name, arr⟩

/-- `ret.insert(pos, s)`. -/
def insert (ret : List Char) (pos : Nat) (s : List Char) : Except Failure (List Char) :=
  if pos ≤ ret.length then .ok (ret.take pos ++ s ++ ret.drop pos) else .error .outOfRange

/-- `std::hex << std::setfill('0') << std::setw(16) << word`. -/
def hexText (word : UInt64) : List Char := setw '0' 16 (Nat.toDigits 16 word.toNat)

def UUID.string (u : UUID) : Except Failure (List Char) := do
  let ret := hexText u.uuid.first ++ hexText u.uuid.second
  let ret ← insert ret 8 ['-']
  let ret ← insert ret (8 + 4 + 1) ['-']
  let ret ← insert ret (8 + 4 + 4 + 2) ['-']
  insert ret (8 + 4 + 4 + 4 + 3) ['-']

/-! ## The form of a UUID -/

def lowerHex : List Char := "0123456789abcdef".toList

/-- Five groups with hyphens between them. -/
def hyphenate (a b c d e : List Char) : List Char :=
  a ++ '-' :: (b ++ '-' :: (c ++ '-' :: (d ++ '-' :: e)))

/-- 8-4-4-4-12 lower-case hex digits. -/
def CanonicalForm (s : List Char) : Prop :=
  ∃ a b c d e, a.length = 8 ∧ b.length = 4 ∧ c.length = 4 ∧ d.length = 4 ∧ e.length = 12 ∧
    (∀ x ∈ a ++ b ++ c ++ d ++ e, x ∈ lowerHex) ∧ s = hyphenate a b c d e

/-- The digits of a UUID, in the groups they are written in. -/
structure Groups where
  a : List Nat
  b : List Nat
  c : List Nat
  d : List Nat
  e : List Nat
  length_a : a.length = 8
  length_b : b.length = 4
  length_c : c.length = 4
  length_d : d.length = 4
  length_e : e.length = 12
  lt : ∀ x ∈ a ++ b ++ c ++ d ++ e, x < 16

def hexDigits (ds : List Nat) : List Char := ds.map Nat.digitChar

def Groups.text (g : Groups) : List Char :=
  hyphenate (hexDigits g.a) (hexDigits g.b) (hexDigits g.c) (hexDigits g.d) (hexDigits g.e)

def wordOf (ds : List Nat) : UInt64 := (ofDigits 16 ds).toUInt64

def Groups.words (g : Groups) : Raw := ⟨wordOf (g.a ++ g.b ++ g.c), wordOf (g.d ++ g.e)⟩

theorem lowerHex_iff {c : Char} : c ∈ lowerHex ↔ ∃ d < 16, Nat.digitChar d = c := by
  have h : lowerHex = (List.range 16).map Nat.digitChar := by decide
  rw [h, List.mem_map]
  simp only [List.mem_range]

theorem exists_hexDigits {s : List Char} (h : ∀ c ∈ s, c ∈ lowerHex) :
    ∃ ds, (∀ d ∈ ds, d < 16) ∧ hexDigits ds = s := by
  induction s with
  | nil => exact ⟨[], by simp, rfl⟩
  | cons c s ih =>
    obtain ⟨hc, hs⟩ := List.forall_mem_cons.1 h
    obtain ⟨d, hd, hdc⟩ := lowerHex_iff.1 hc
    obtain ⟨ds, hds, htext⟩ := ih hs
    refine ⟨d :: ds, List.forall_mem_cons.2 ⟨hd, hds⟩, ?_⟩
    rw [hexDigits, List.map_cons, hdc, ← htext]
    rfl

theorem hexDigits_mem {ds : List Nat} (h : ∀ d ∈ ds, d < 16) :
    ∀ c ∈ hexDigits ds, c ∈ lowerHex := by
  intro c hc
  obtain ⟨d, hd, rfl⟩ := List.mem_map.1 hc
  exact lowerHex_iff.2 ⟨d, h d hd, rfl⟩

@[simp] theorem length_hexDigits (ds : List Nat) : (hexDigits ds).length = ds.length :=
  List.length_map _

theorem hexDigits_append (xs ys : List Nat) : hexDigits (xs ++ ys) = hexDigits xs ++ hexDigits ys :=
  List.map_append

/-- A text in canonical form is the text of its digits. -/
theorem exists_groups_text {s : List Char} (h : CanonicalForm s) : ∃ g : Groups, g.text = s := by
  obtain ⟨a, b, c, d, e, ha, hb, hc, hd, he, hhex, rfl⟩ := h
  simp only [List.forall_mem_append] at hhex
  obtain ⟨⟨⟨⟨hxa, hxb⟩, hxc⟩, hxd⟩, hxe⟩ := hhex
  obtain ⟨a, hla, rfl⟩ := exists_hexDigits hxa
  obtain ⟨b, hlb, rfl⟩ := exists_hexDigits hxb
  obtain ⟨c, hlc, rfl⟩ := exists_hexDigits hxc
  obtain ⟨d, hld, rfl⟩ := exists_hexDigits hxd
  obtain ⟨e, hle, rfl⟩ := exists_hexDigits hxe
  rw [length_hexDigits] at ha hb hc hd he
  refine ⟨⟨a, b, c, d, e, ha, hb, hc, hd, he, ?_⟩, rfl⟩
  simp only [List.forall_mem_append]
  exact ⟨⟨⟨⟨hla, hlb⟩, hlc⟩, hld⟩, hle⟩

theorem Groups.canonicalForm (g : Groups) : CanonicalForm g.text := by
  refine ⟨_, _, _, _, _, ?_, ?_, ?_, ?_, ?_, ?_, rfl⟩
  · rw [length_hexDigits, g.length_a]
  · rw [length_hexDigits, g.length_b]
  · rw [length_hexDigits, g.length_c]
  · rw [length_hexDigits, g.length_d]
  · rw [length_hexDigits, g.length_e]
  · simp only [← hexDigits_append]
    exact hexDigits_mem g.lt

/-- The digits a word is printed with. -/
theorem exists_wordOf (word : UInt64) :
    ∃ ds, ds.length = 16 ∧ (∀ d ∈ ds, d < 16) ∧ wordOf ds = word := by
  obtain ⟨ds, hlen, hlt, hvalue, -⟩ :=
    @exists_padded 16 16 word.toNat (by decide) (by decide) word.toNat_lt
  refine ⟨ds, hlen, hlt, ?_⟩
  rw [wordOf, hvalue]
  exact UInt64.ofNat_toNat

theorem hexText_wordOf {ds : List Nat} (hlen : ds.length = 16) (hlt : ∀ d ∈ ds, d < 16) :
    hexText (wordOf ds) = hexDigits ds := by
  have hfits : ofDigits 16 ds < 2 ^ 64 := by
    have h := ofDigits_lt (by decide) hlt
    rwa [hlen] at h
  have hne : ds ≠ [] := by
    rintro rfl
    cases hlen
  have h := setw_toDigits (by decide) hne hlt
  rw [hlen] at h
  rw [hexText, wordOf, hexDigits, ← h, UInt64.toNat_ofNat_of_lt' hfits]

theorem exists_split {l : List Nat} {m n : Nat} (h : l.length = m + n) :
    ∃ xs ys, xs.length = m ∧ ys.length = n ∧ xs ++ ys = l := by
  refine ⟨l.take m, l.drop m, ?_, ?_, List.take_append_drop m l⟩
  · rw [List.length_take]
    omega
  · rw [List.length_drop]
    omega

/-- Two words have their digits. -/
theorem exists_groups_words (words : Raw) : ∃ g : Groups, g.words = words := by
  obtain ⟨xs, hxs, hx, hfirst⟩ := exists_wordOf words.first
  obtain ⟨ys, hys, hy, hsecond⟩ := exists_wordOf words.second
  obtain ⟨a, bc, ha, hbc, rfl⟩ := @exists_split xs 8 8 hxs
  obtain ⟨b, c, hb, hc, rfl⟩ := @exists_split bc 4 4 hbc
  obtain ⟨d, e, hd, he, rfl⟩ := @exists_split ys 4 12 hys
  refine ⟨⟨a, b, c, d, e, ha, hb, hc, hd, he, ?_⟩, ?_⟩
  · rw [List.append_assoc, List.append_assoc a, List.forall_mem_append]
    exact ⟨hx, hy⟩
  · show (⟨wordOf (a ++ b ++ c), wordOf (d ++ e)⟩ : Raw) = words
    rw [List.append_assoc, hfirst, hsecond]

/-! ## Printing -/

theorem insert_length {a rest : List Char} (s : List Char) {pos : Nat} (h : pos = a.length) :
    insert (a ++ rest) pos s = .ok (a ++ s ++ rest) := by
  subst h
  unfold insert
  rw [if_pos (by simp), List.take_left, List.drop_left]

/-- Four insertions put a hyphen behind each of the first four groups. -/
theorem string_eq {u : UUID} {a b c d e : List Char} (hfirst : hexText u.uuid.first = a ++ b ++ c)
    (hsecond : hexText u.uuid.second = d ++ e) (ha : a.length = 8) (hb : b.length = 4)
    (hc : c.length = 4) (hd : d.length = 4) : u.string = .ok (hyphenate a b c d e) := by
  have h1 := @insert_length a (b ++ (c ++ (d ++ e))) ['-'] 8 ha.symm
  have h2 := @insert_length (a ++ ['-'] ++ b) (c ++ (d ++ e)) ['-'] 13 (by simp [ha, hb])
  have h3 := @insert_length (a ++ ['-'] ++ b ++ ['-'] ++ c) (d ++ e) ['-'] 18
    (by simp [ha, hb, hc])
  have h4 := @insert_length (a ++ ['-'] ++ b ++ ['-'] ++ c ++ ['-'] ++ d) e ['-'] 23
    (by simp [ha, hb, hc, hd])
  simp only [List.append_assoc] at h1 h2 h3 h4
  unfold UUID.string
  rw [hfirst, hsecond]
  simp only [List.append_assoc, h1, h2, h3, h4, bind, Except.bind]
  simp [hyphenate]

/-- Words are printed as their digits. -/
theorem string_words (method : Method) (g : Groups) :
    UUID.string ⟨method, g.words⟩ = .ok g.text := by
  have hlt := g.lt
  rw [List.append_assoc, List.forall_mem_append] at hlt
  have hfirst : (g.a ++ g.b ++ g.c).length = 16 := by
    simp [g.length_a, g.length_b, g.length_c]
  have hsecond : (g.d ++ g.e).length = 16 := by
    simp [g.length_d, g.length_e]
  refine string_eq ?_ ?_ ?_ ?_ ?_ ?_
  · show hexText (wordOf (g.a ++ g.b ++ g.c)) = _
    rw [hexText_wordOf hfirst hlt.1, hexDigits_append, hexDigits_append]
  · show hexText (wordOf (g.d ++ g.e)) = _
    rw [hexText_wordOf hsecond hlt.2, hexDigits_append]
  · rw [length_hexDigits, g.length_a]
  · rw [length_hexDigits, g.length_b]
  · rw [length_hexDigits, g.length_c]
  · rw [length_hexDigits, g.length_d]

/-! ## Reading -/

/-- The digits put behind a word, 4 bits each. -/
def appendDigits (word : UInt64) (ds : List Nat) : UInt64 :=
  ds.foldl (fun w d => w * 16 + d.toUInt64) word

theorem appendDigits_append (word : UInt64) (xs ys : List Nat) :
    appendDigits word (xs ++ ys) = appendDigits (appendDigits word xs) ys :=
  List.foldl_append

theorem appendDigits_zero (ds : List Nat) : appendDigits 0 ds = wordOf ds := by
  have hfold : ∀ (ds : List Nat) (n : Nat), appendDigits n.toUInt64 ds =
      (ds.foldl (fun n d => n * 16 + d) n).toUInt64 := by
    intro ds
    induction ds with
    | nil => intro n; rfl
    | cons d ds ih =>
      intro n
      have hstep : n.toUInt64 * 16 + d.toUInt64 = (n * 16 + d).toUInt64 := by
        show UInt64.ofNat n * UInt64.ofNat 16 + UInt64.ofNat d = UInt64.ofNat (n * 16 + d)
        rw [UInt64.ofNat_add, UInt64.ofNat_mul]
      rw [List.foldl_cons, ← ih, ← hstep]
      rfl
  exact hfold ds 0

/-- A byte is two digits. -/
theorem shiftIn_eq (word : UInt64) {d e : Nat} (hd : d < 16) (he : e < 16) :
    shiftIn (d * 16 + e).toUInt64.toUInt8 word = appendDigits word [d, e] := by
  have hvalue : (d * 16 + e).toUInt64.toUInt8.toUInt64.toNat = d * 16 + e := by
    show (UInt64.ofNat (d * 16 + e)).toUInt8.toUInt64.toNat = d * 16 + e
    rw [UInt8.toNat_toUInt64, UInt64.toNat_toUInt8,
      UInt64.toNat_ofNat_of_lt' (show d * 16 + e < 2 ^ 64 by omega)]
    omega
  have hdigit : ∀ x < 16, x.toUInt64.toNat = x := by
    intro x hx
    exact UInt64.toNat_ofNat_of_lt' (show x < 2 ^ 64 by omega)
  rw [← UInt64.toNat_inj, shiftIn, LittleEndian.toNat_shiftLeft_or word (by omega), hvalue]
  show _ = ((word * 16 + d.toUInt64) * 16 + e.toUInt64).toNat
  rw [UInt64.toNat_add, UInt64.toNat_mul, UInt64.toNat_add, UInt64.toNat_mul, hdigit d hd,
    hdigit e he]
  show _ = ((word.toNat * 16 % 2 ^ 64 + d) % 2 ^ 64 * 16 % 2 ^ 64 + e) % 2 ^ 64
  omega

theorem readPairs_hyphen (count : Nat) (arr : Raw) (rest : List Char) :
    readPairs count arr ('-' :: rest) = readPairs count arr rest := by
  rw [readPairs.eq_def]
  rfl

theorem readPairs_pair (count : Nat) (arr : Raw) (rest : List Char) {d e : Nat} (hd : d < 16)
    (he : e < 16) :
    readPairs count arr (Nat.digitChar d :: Nat.digitChar e :: rest) =
      readPairs (count + 1)
        (arr.modify (if count ≥ 8 then 1 else 0) fun w => appendDigits w [d, e]) rest := by
  have hne : Nat.digitChar d ≠ '-' := by
    interval_cases d <;> decide
  have hvalue : ofDigits 16 [d, e] = d * 16 + e := by simp [ofDigits]
  have hstoull : stoull 16 [Nat.digitChar d, Nat.digitChar e] = .ok (d * 16 + e).toUInt64 := by
    rw [← hvalue]
    refine stoull_eq (by simp) ?_ (by omega)
    simp [digitVal_digitChar hd, digitVal_digitChar he]
  have hshift : shiftIn (d * 16 + e).toUInt64.toUInt8 = fun w => appendDigits w [d, e] := by
    funext w
    exact shiftIn_eq w hd he
  rw [readPairs.eq_def]
  simp only [if_neg hne, hstoull, hshift]

theorem Raw.modify_modify (arr : Raw) (idx : Nat) (f g : UInt64 → UInt64) :
    (arr.modify idx f).modify idx g = arr.modify idx fun w => g (f w) := by
  unfold Raw.modify
  by_cases h : idx = 0
  · rw [if_pos h, if_pos h, if_pos h]
  · rw [if_neg h, if_neg h, if_neg h]

/-- `n` bytes that go into the same word. -/
theorem readPairs_digits {count n idx : Nat} {ds : List Nat} (arr : Raw) (rest : List Char)
    (hidx : ∀ k, count ≤ k → k < count + n → (if k ≥ 8 then 1 else 0) = idx)
    (hlen : ds.length = 2 * n) (hlt : ∀ d ∈ ds, d < 16) :
    readPairs count arr (hexDigits ds ++ rest) =
      readPairs (count + n) (arr.modify idx fun w => appendDigits w ds) rest := by
  induction n generalizing count arr ds with
  | zero =>
    have hnil : ds = [] := List.length_eq_zero_iff.1 hlen
    have hsame : (arr.modify idx fun w => appendDigits w []) = arr := by
      unfold Raw.modify
      split <;> rfl
    rw [hnil, hsame]
    rfl
  | succ n ih =>
    obtain ⟨d, ds, rfl⟩ := List.exists_cons_of_length_pos (show 0 < ds.length by omega)
    obtain ⟨e, ds, rfl⟩ := List.exists_cons_of_length_pos
      (show 0 < ds.length by rw [List.length_cons] at hlen; omega)
    obtain ⟨hd, hlt⟩ := List.forall_mem_cons.1 hlt
    obtain ⟨he, hlt⟩ := List.forall_mem_cons.1 hlt
    have hfirst := hidx count (by omega) (by omega)
    have hrest : ∀ k, count + 1 ≤ k → k < count + 1 + n → (if k ≥ 8 then 1 else 0) = idx := by
      intro k hk hk'
      exact hidx k (by omega) (by omega)
    show readPairs count arr (Nat.digitChar d :: Nat.digitChar e :: (hexDigits ds ++ rest)) = _
    rw [readPairs_pair count arr _ hd he, hfirst,
      ih _ hrest (by rw [List.length_cons, List.length_cons] at hlen; omega) hlt,
      Raw.modify_modify, Nat.add_assoc, Nat.add_comm 1 n]
    rfl

/-- The digits of the groups, read into the two words. -/
theorem readPairs_text (g : Groups) : readPairs 0 ⟨0, 0⟩ g.text = .ok g.words := by
  have hlt := g.lt
  simp only [List.forall_mem_append] at hlt
  obtain ⟨⟨⟨⟨ha, hb⟩, hc⟩, hd⟩, he⟩ := hlt
  have hlow : ∀ k < 8, (if k ≥ 8 then 1 else 0) = 0 := by
    intro k hk
    exact if_neg (by omega)
  have hhigh : ∀ k, 8 ≤ k → (if k ≥ 8 then 1 else 0) = 1 := by
    intro k hk
    exact if_pos hk
  unfold Groups.text hyphenate
  rw [@readPairs_digits 0 4 0 _ _ _ (fun k _ h => hlow k (by omega)) g.length_a ha,
    readPairs_hyphen,
    @readPairs_digits 4 2 0 _ _ _ (fun k _ h => hlow k (by omega)) g.length_b hb,
    readPairs_hyphen,
    @readPairs_digits 6 2 0 _ _ _ (fun k _ h => hlow k (by omega)) g.length_c hc,
    readPairs_hyphen,
    @readPairs_digits 8 2 1 _ _ _ (fun k h _ => hhigh k h) g.length_d hd, readPairs_hyphen,
    ← List.append_nil (hexDigits g.e),
    @readPairs_digits 10 6 1 _ _ _ (fun k h _ => hhigh k (by omega)) g.length_e he]
  show Except.ok (⟨appendDigits (appendDigits (appendDigits 0 g.a) g.b) g.c,
    appendDigits (appendDigits 0 g.d) g.e⟩ : Raw) = _
  rw [← appendDigits_append, ← appendDigits_append, ← appendDigits_append, appendDigits_zero,
    appendDigits_zero, Groups.words, List.append_assoc]

/-! ## The three checks -/

/-- What `fromString` checks before it reads. -/
def PassesChecks (str : List Char) : Prop :=
  (∀ c ∈ str, c ∈ alphabet) ∧ str.length = 36 ∧
    str[8]? = some '-' ∧ str[13]? = some '-' ∧ str[18]? = some '-' ∧ str[23]? = some '-'

theorem fromString_of_checks {str : List Char} (h : PassesChecks str) :
    fromString str = (readPairs 0 ⟨0, 0⟩ str).map fun arr => ⟨.name, arr⟩ := by
  obtain ⟨halphabet, hlen, h8, h13, h18, h23⟩ := h
  unfold fromString
  rw [if_neg (not_not_intro halphabet), if_neg (not_not_intro hlen), if_neg]
  simp [h8, h13, h18, h23]

theorem fromString_of_not_checks {str : List Char} (h : ¬ PassesChecks str) :
    ∃ what, fromString str = .error (.runtimeError what) := by
  unfold fromString
  by_cases halphabet : ∀ c ∈ str, c ∈ alphabet
  · rw [if_neg (not_not_intro halphabet)]
    by_cases hlen : str.length ≠ 36
    · exact ⟨_, if_pos hlen⟩
    · rw [if_neg hlen, if_pos]
      · exact ⟨_, rfl⟩
      · by_contra hhyphens
        simp only [not_or, not_not] at hhyphens hlen
        exact h ⟨halphabet, hlen, hhyphens⟩
  · exact ⟨_, if_pos halphabet⟩

/-- A hyphen where none of the four belongs. -/
def StrayHyphen (str : List Char) : Prop :=
  ∃ i, str[i]? = some '-' ∧ i ≠ 8 ∧ i ≠ 13 ∧ i ≠ 18 ∧ i ≠ 23

theorem hyphen_not_mem {s : List Char} (h : ∀ c ∈ s, c ∈ lowerHex) : '-' ∉ s := by
  intro hmem
  exact absurd (h '-' hmem) (by decide)

/-- The hyphens behind a group. -/
theorem getElem?_group {a rest : List Char} (ha : '-' ∉ a) {i : Nat}
    (h : (a ++ '-' :: rest)[i]? = some '-') :
    i = a.length ∨ ∃ j, i = a.length + 1 + j ∧ rest[j]? = some '-' := by
  rcases Nat.lt_trichotomy i a.length with hlt | heq | hgt
  · rw [List.getElem?_append_left hlt] at h
    exact absurd (List.mem_of_getElem? h) ha
  · exact .inl heq
  · refine .inr ⟨i - (a.length + 1), by omega, ?_⟩
    rw [List.getElem?_append_right (by omega)] at h
    obtain ⟨j, hj⟩ := Nat.exists_eq_add_of_lt hgt
    rw [hj, show a.length + j + 1 - a.length = j + 1 by omega, List.getElem?_cons_succ] at h
    rwa [hj, show a.length + j + 1 - (a.length + 1) = j by omega]

theorem mem_alphabet {c : Char} : c ∈ alphabet ↔ c ∈ lowerHex ∨ c = '-' := by
  have h : alphabet = lowerHex ++ ['-'] := by decide
  rw [h, List.mem_append, List.mem_singleton]

theorem getElem?_hyphen {s x y : List Char} {i : Nat} (h : s = x ++ '-' :: y)
    (hi : i = x.length) : s[i]? = some '-' := by
  rw [h, hi, List.getElem?_append_right (Nat.le_refl _), Nat.sub_self]
  rfl

theorem CanonicalForm.checks {s : List Char} (h : CanonicalForm s) :
    PassesChecks s ∧ ¬ StrayHyphen s := by
  obtain ⟨a, b, c, d, e, ha, hb, hc, hd, he, hhex, rfl⟩ := h
  simp only [List.forall_mem_append] at hhex
  obtain ⟨⟨⟨⟨hxa, hxb⟩, hxc⟩, hxd⟩, hxe⟩ := hhex
  refine ⟨⟨?_, ?_, ?_, ?_, ?_, ?_⟩, ?_⟩
  · have hsub : ∀ {x : List Char}, (∀ c ∈ x, c ∈ lowerHex) → ∀ c ∈ x, c ∈ alphabet := by
      intro x hx c hc
      exact mem_alphabet.2 (.inl (hx c hc))
    have hhyphen : '-' ∈ alphabet := by decide
    simp only [hyphenate, List.forall_mem_append, List.forall_mem_cons]
    exact ⟨hsub hxa, hhyphen, hsub hxb, hhyphen, hsub hxc, hhyphen, hsub hxd, hhyphen, hsub hxe⟩
  · simp [hyphenate, ha, hb, hc, hd, he]
  · exact @getElem?_hyphen _ a _ 8 rfl ha.symm
  · exact @getElem?_hyphen _ (a ++ '-' :: b) _ 13 (by simp [hyphenate]; rfl) (by simp [ha, hb])
  · exact @getElem?_hyphen _ (a ++ '-' :: (b ++ '-' :: c)) _ 18 (by simp [hyphenate]; rfl)
      (by simp [ha, hb, hc])
  · exact @getElem?_hyphen _ (a ++ '-' :: (b ++ '-' :: (c ++ '-' :: d))) e 23
      (by simp [hyphenate]) (by simp [ha, hb, hc, hd])
  · rintro ⟨i, hi, h8, h13, h18, h23⟩
    rcases getElem?_group (hyphen_not_mem hxa) hi with h | ⟨j, hj, hi⟩
    · omega
    rcases getElem?_group (hyphen_not_mem hxb) hi with h | ⟨k, hk, hi⟩
    · omega
    rcases getElem?_group (hyphen_not_mem hxc) hi with h | ⟨l, hl, hi⟩
    · omega
    rcases getElem?_group (hyphen_not_mem hxd) hi with h | ⟨m, hm, hi⟩
    · omega
    exact hyphen_not_mem hxe (List.mem_of_getElem? hi)

theorem split_hyphen {s : List Char} {i : Nat} (h : s[i]? = some '-') :
    ∃ x y, x.length = i ∧ s = x ++ '-' :: y := by
  obtain ⟨hi, hget⟩ := List.getElem?_eq_some_iff.1 h
  refine ⟨s.take i, s.drop (i + 1), ?_, ?_⟩
  · rw [List.length_take]
    omega
  · rw [← hget, ← List.drop_eq_getElem_cons, List.take_append_drop]

theorem getElem?_behind (x y : List Char) (j : Nat) :
    (x ++ '-' :: y)[x.length + 1 + j]? = y[j]? := by
  rw [List.getElem?_append_right (by omega),
    show x.length + 1 + j - x.length = j + 1 by omega, List.getElem?_cons_succ]

/-- What stands between the places of the hyphens is hex. -/
theorem group_hex {s p q r : List Char} (halphabet : ∀ c ∈ s, c ∈ alphabet)
    (hstray : ¬ StrayHyphen s) (hs : s = p ++ (q ++ r))
    (hgap : ∀ i, p.length ≤ i → i < p.length + q.length → i ≠ 8 ∧ i ≠ 13 ∧ i ≠ 18 ∧ i ≠ 23) :
    ∀ c ∈ q, c ∈ lowerHex := by
  intro c hc
  have hmem : c ∈ s := by
    rw [hs]
    exact List.mem_append_right _ (List.mem_append_left _ hc)
  rcases mem_alphabet.1 (halphabet c hmem) with hhex | rfl
  · exact hhex
  · obtain ⟨j, hj, hget⟩ := List.getElem_of_mem hc
    refine absurd ⟨p.length + j, ?_, hgap _ (Nat.le_add_right _ _) (by omega)⟩ hstray
    rw [hs, List.getElem?_append_right (Nat.le_add_right _ _), Nat.add_sub_cancel_left,
      List.getElem?_append_left hj, List.getElem?_eq_getElem hj, hget]

/-- The checks, and no hyphen in another place, leave the canonical form. -/
theorem canonicalForm_of_checks {s : List Char} (h : PassesChecks s) (hstray : ¬ StrayHyphen s) :
    CanonicalForm s := by
  obtain ⟨halphabet, hlen, h8, h13, h18, h23⟩ := h
  obtain ⟨a, t, ha, rfl⟩ := split_hyphen h8
  obtain ⟨b, t, hb, rfl⟩ := @split_hyphen t 4 (by rw [← getElem?_behind a, ha]; exact h13)
  obtain ⟨c, t, hc, rfl⟩ := @split_hyphen t 4 (by
    rw [← getElem?_behind b, hb, ← getElem?_behind a, ha]; exact h18)
  obtain ⟨d, e, hd, rfl⟩ := @split_hyphen t 4 (by
    rw [← getElem?_behind c, hc, ← getElem?_behind b, hb, ← getElem?_behind a, ha]; exact h23)
  have he : e.length = 12 := by
    simp only [List.length_append, List.length_cons] at hlen
    omega
  refine ⟨a, b, c, d, e, ha, hb, hc, hd, he, ?_, rfl⟩
  simp only [List.forall_mem_append]
  refine ⟨⟨⟨⟨?_, ?_⟩, ?_⟩, ?_⟩, ?_⟩
  · refine @group_hex _ [] a _ halphabet hstray rfl ?_
    intro i _ hi
    rw [List.length_nil] at hi
    omega
  · refine @group_hex _ (a ++ ['-']) b _ halphabet hstray (by simp; rfl) ?_
    intro i hi hi'
    rw [List.length_append, List.length_singleton] at hi hi'
    omega
  · refine @group_hex _ (a ++ '-' :: (b ++ ['-'])) c _ halphabet hstray (by simp; rfl) ?_
    intro i hi hi'
    simp only [List.length_append, List.length_cons, List.length_nil] at hi hi'
    omega
  · refine @group_hex _ (a ++ '-' :: (b ++ '-' :: (c ++ ['-']))) d _ halphabet hstray
      (by simp; rfl) ?_
    intro i hi hi'
    simp only [List.length_append, List.length_cons, List.length_nil] at hi hi'
    omega
  · refine @group_hex _ (a ++ '-' :: (b ++ '-' :: (c ++ '-' :: (d ++ ['-'])))) e [] halphabet hstray
      (by simp) ?_
    intro i hi hi'
    simp only [List.length_append, List.length_cons, List.length_nil] at hi hi'
    omega

/-! ## Round trips and the contract -/

/-- The text of some digits is read as their words. -/
theorem fromString_text (g : Groups) : fromString g.text = .ok ⟨.name, g.words⟩ := by
  rw [fromString_of_checks g.canonicalForm.checks.1, readPairs_text]
  rfl

/-- **`FromString` and `String` are inverse to each other.** -/
theorem string_fromString :
    (∀ u : UUID, ∃ s, u.string = .ok s ∧ ∃ v, fromString s = .ok v ∧ v.raw = u.raw) ∧
      ∀ s, CanonicalForm s → ∃ u, fromString s = .ok u ∧ u.string = .ok s := by
  constructor
  · rintro ⟨method, words⟩
    obtain ⟨g, rfl⟩ := exists_groups_words words
    exact ⟨g.text, string_words method g, _, fromString_text g, rfl⟩
  · intro s hs
    obtain ⟨g, rfl⟩ := exists_groups_text hs
    exact ⟨_, fromString_text g, string_words .name g⟩

theorem string_fromString_f81d4fae : ∃ u,
    fromString "f81d4fae-7dec-11d0-a765-00a0c91e6bf6".toList = .ok u ∧
      u.string = .ok "f81d4fae-7dec-11d0-a765-00a0c91e6bf6".toList :=
  string_fromString.2 _ ⟨"f81d4fae".toList, "7dec".toList, "11d0".toList, "a765".toList,
    "00a0c91e6bf6".toList, rfl, rfl, rfl, rfl, rfl, by decide, rfl⟩

theorem readPairs_ne_runtimeError (count : Nat) (arr : Raw) (s what : List Char) :
    readPairs count arr s ≠ .error (.runtimeError what) := by
  fun_induction readPairs count arr s <;> simp_all

/-- **`FromString` reads canonical forms, throws `runtime_error` for every other text and stays
inside the text: exactly where the checks leave no hyphen in another place.** -/
theorem fromString_contract_iff (s : List Char) :
    (((∃ u, fromString s = .ok u) ↔ CanonicalForm s) ∧
      (¬ CanonicalForm s → ∃ what, fromString s = .error (.runtimeError what)) ∧
      fromString s ≠ .error (.undefined .outOfBounds)) ↔
    (PassesChecks s → ¬ StrayHyphen s) := by
  by_cases hchecks : PassesChecks s
  · by_cases hstray : StrayHyphen s
    · refine iff_of_false ?_ (fun h => h hchecks hstray)
      rintro ⟨-, hthrows, -⟩
      obtain ⟨what, hwhat⟩ := hthrows fun hs => hs.checks.2 hstray
      rw [fromString_of_checks hchecks] at hwhat
      have hne := readPairs_ne_runtimeError 0 ⟨0, 0⟩ s what
      cases hread : readPairs 0 ⟨0, 0⟩ s with
      | ok arr =>
        rw [hread] at hwhat
        cases hwhat
      | error e =>
        rw [hread] at hwhat
        cases hwhat
        exact hne hread
    · refine iff_of_true ?_ (fun _ => hstray)
      have hs := canonicalForm_of_checks hchecks hstray
      obtain ⟨g, rfl⟩ := exists_groups_text hs
      have hread := fromString_text g
      refine ⟨⟨fun _ => hs, fun _ => ⟨_, hread⟩⟩, fun hno => absurd hs hno, ?_⟩
      rw [hread]
      simp
  · refine iff_of_true ?_ (fun h => absurd h hchecks)
    obtain ⟨what, hwhat⟩ := fromString_of_not_checks hchecks
    refine ⟨⟨?_, fun hs => absurd hs.checks.1 hchecks⟩, fun _ => ⟨what, hwhat⟩, ?_⟩
    · rintro ⟨u, hu⟩
      rw [hwhat] at hu
      cases hu
    · rw [hwhat]
      simp

/-- 36 hyphens are read as a UUID; another text is read behind its end. -/
theorem stray_hyphens :
    (fromString (List.replicate 36 '-') = .ok ⟨.name, ⟨0, 0⟩⟩ ∧
      ¬ CanonicalForm (List.replicate 36 '-')) ∧
    fromString "00000000-0000-0000-0000--00000000000".toList =
      .error (.undefined .outOfBounds) := by
  refine ⟨⟨by decide +kernel, ?_⟩, by decide +kernel⟩
  intro h
  exact h.checks.2 ⟨0, rfl, by decide⟩

end Uuid
