import Mathlib

/-!
# The C++ runtime the programs run on

A call returns a value or stops the program (`Stop`): `exit`, `abort`, an
uncaught exception, or undefined behaviour, where the model ends.  Memory is
read through `readAt`, which stops at an index outside the object.

A C++ `char` is a byte; in the text programs it is the `Char` with that code, so
a theorem about every list of `Char` covers every byte text.  Where arithmetic
is done on a `char` it is signed (`signedChar`).

`extractU16` is `stream >> u16`: blanks skipped, an optional sign, the longest
run of digits; 0 without a digit, the largest value when it does not fit, the
negation mod 2^16 after a minus sign.  `strtoull` reads the same way into 64 bits and
says when there is no digit, `stoull` throws then, and when the number does not fit; `words`
is `stream >> s` until the stream ends.
-/

namespace Cxx

/-- Kinds of undefined behaviour. -/
inductive Undefined
  | outOfBounds
  | nullPointer
  | signedOverflow
  | uninitialized
  | divisionByZero
deriving DecidableEq, Repr

/-- Why a call does not return. -/
inductive Stop
  | exit (code : Nat)
  | abort
  | exception
  | undefined (what : Undefined)
deriving DecidableEq, Repr

/-- `xs[i]`. -/
def readAt {α : Type} (xs : List α) (i : Nat) : Except Stop α :=
  match xs[i]? with
  | some x => .ok x
  | none => .error (.undefined .outOfBounds)

/-- `*p`, for a pointer that may be null. -/
def deref {α : Type} : Option α → Except Stop α
  | some x => .ok x
  | none => .error (.undefined .nullPointer)

@[simp] theorem deref_some {α : Type} (x : α) : deref (some x) = .ok x := rfl

@[simp] theorem deref_none {α : Type} :
    deref (none : Option α) = .error (.undefined .nullPointer) := rfl

theorem deref_eq_ok {α : Type} {p : Option α} {x : α} : deref p = .ok x ↔ p = some x := by
  cases p <;> simp

theorem readAt_eq_ok {α : Type} {xs : List α} {i : Nat} {x : α} :
    readAt xs i = .ok x ↔ xs[i]? = some x := by
  unfold readAt
  cases xs[i]? <;> simp

theorem readAt_outOfBounds {α : Type} {xs : List α} {i : Nat} (h : xs.length ≤ i) :
    readAt xs i = .error (.undefined .outOfBounds) := by
  unfold readAt
  rw [List.getElem?_eq_none h]

/-- A read in front of one that is out of bounds. -/
theorem readAt_bind_outOfBounds {α β : Type} {xs : List α} {i : Nat} {f : α → Except Stop β}
    (h : ∀ x, f x = .error (.undefined .outOfBounds)) :
    readAt xs i >>= f = .error (.undefined .outOfBounds) := by
  unfold readAt
  cases xs[i]? with
  | none => rfl
  | some x => exact h x

/-- A call that returns has returned from each of its parts. -/
theorem bind_eq_ok {α β : Type} {x : Except Stop α} {f : α → Except Stop β} {b : β} :
    x >>= f = .ok b ↔ ∃ a, x = .ok a ∧ f a = .ok b := by
  cases x with
  | error e => simp [bind, Except.bind]
  | ok a => simp [bind, Except.bind]

@[simp] theorem ok_bind {α β : Type} (a : α) (f : α → Except Stop β) :
    (Except.ok a >>= f) = f a := rfl

/-- A `std::string` or `std::vector`: its size is at most `max_size`, below 2^63. -/
structure Sized (α : Type) where
  elems : List α
  size_lt : elems.length < 2 ^ 63
deriving DecidableEq

/-- A string built character by character: `length_error` when it grows too long. -/
def Sized.build {α : Type} (xs : List α) : Except Stop (Sized α) :=
  if h : xs.length < 2 ^ 63 then .ok ⟨xs, h⟩ else .error .exception

theorem Sized.build_elems {α : Type} (xs : Sized α) : Sized.build xs.elems = .ok xs :=
  dif_pos xs.size_lt

/-- The `n` elements from `i` on, copied through pointers. -/
def readRange {α : Type} (xs : List α) (i n : Nat) : Except Stop (List α) :=
  if i + n ≤ xs.length then .ok ((xs.drop i).take n) else .error (.undefined .outOfBounds)

theorem readRange_append {α : Type} {pre xs : List α} (post : List α) {i n : Nat}
    (hi : i = pre.length) (hn : n = xs.length) : readRange (pre ++ xs ++ post) i n = .ok xs := by
  subst hi hn
  unfold readRange
  rw [if_pos (by simp), List.append_assoc, List.drop_left, List.take_left]

/-- `++n` on a `size_t`. -/
def incr (n : Nat) : Nat := (n + 1) % 2 ^ 64

/-- `--n` on a `size_t`: below 0 comes the largest value. -/
def decr (n : Nat) : Nat := (n + (2 ^ 64 - 1)) % 2 ^ 64

/-- The value of a `char` in arithmetic. -/
def signedChar (c : Char) : Int := if c.toNat < 128 then c.toNat else c.toNat - 256

/-- A byte as a character. -/
theorem toNat_ofNat_byte (b : UInt8) : (Char.ofNat b.toNat).toNat = b.toNat := by
  have hlt := b.toNat_lt
  rw [Char.toNat_ofNat, if_pos (.inl (by omega))]

/-- What is to be decided of every character of a text is decided by going through the text. -/
instance (priority := high) decidableForallMemChar {p : Char → Prop} [DecidablePred p]
    (s : List Char) : Decidable (∀ c ∈ s, p c) := List.decidableBAll p s

instance (priority := high) decidableMemTexts (s : List Char) (texts : List (List Char)) :
    Decidable (s ∈ texts) := List.instDecidableMemOfLawfulBEq s texts

/-- The order of `std::uint64_t`. -/
instance linearOrderUInt64 : LinearOrder UInt64 where
  le_refl := UInt64.le_refl
  le_trans _ _ _ := UInt64.le_trans
  lt_iff_le_not_ge a b := by
    rw [UInt64.le_iff_toNat_le, UInt64.lt_iff_toNat_lt, UInt64.le_iff_toNat_le]
    omega
  le_antisymm _ _ := UInt64.le_antisymm
  le_total := UInt64.le_total
  toDecidableLE := inferInstance

/-! ## Reading a number from a stream -/

/-- `isspace` in the C locale. -/
def isSpace (c : Char) : Bool :=
  c = ' ' || c = '\t' || c = '\n' || c = '\x0b' || c = '\x0c' || c = '\r'

/-- The value of a digit in base 10 or 16. -/
def digitVal (base : Nat) (c : Char) : Option Nat :=
  let v :=
    if '0' ≤ c ∧ c ≤ '9' then some (c.toNat - 48)
    else if 'a' ≤ c ∧ c ≤ 'f' then some (c.toNat - 87)
    else if 'A' ≤ c ∧ c ≤ 'F' then some (c.toNat - 55)
    else none
  v.filter fun d => d < base

/-- The digits at the front. -/
def leadingDigits (base : Nat) : List Char → List Nat
  | [] => []
  | c :: s =>
    match digitVal base c with
    | some d => d :: leadingDigits base s
    | none => []

/-- The number the digits write. -/
def ofDigits (base : Nat) (ds : List Nat) : Nat := ds.foldl (fun n d => n * base + d) 0

/-- `0x` in front of a number in base 16: it counts only where a digit follows. -/
def dropHexPrefix (base : Nat) : List Char → List Char
  | '0' :: x :: s =>
    if base = 16 ∧ (x = 'x' ∨ x = 'X') ∧ (s.head?.bind (digitVal 16)).isSome then s
    else '0' :: x :: s
  | s => s

/-- The digits after the sign. -/
def extractMagnitude (base : Nat) (negative : Bool) (s : List Char) : UInt16 :=
  match leadingDigits base (dropHexPrefix base s) with
  | [] => 0
  | ds =>
    let n := ofDigits base ds
    if n ≤ 65535 then (if negative then -n.toUInt16 else n.toUInt16) else 65535

/-- `stream >> v` for a `std::uint16_t v`, in base 10 (`std::dec`) or 16 (`std::hex`). -/
def extractU16 (base : Nat) (s : List Char) : UInt16 :=
  match s.dropWhile isSpace with
  | '-' :: t => extractMagnitude base true t
  | '+' :: t => extractMagnitude base false t
  | t => extractMagnitude base false t

/-- The digits after the sign, into 64 bits. -/
def convertMagnitude (base : Nat) (negative : Bool) (s : List Char) : Option UInt64 :=
  match leadingDigits base (dropHexPrefix base s) with
  | [] => none
  | ds =>
    let n := ofDigits base ds
    let max : Nat := 2 ^ 64 - 1
    some (if n ≤ max then (if negative then -n.toUInt64 else n.toUInt64) else max.toUInt64)

/-- `strtoull(s, &end, base)`: `none` when there is nothing to convert. -/
def strtoull (base : Nat) (s : List Char) : Option UInt64 :=
  match s.dropWhile isSpace with
  | '-' :: t => convertMagnitude base true t
  | '+' :: t => convertMagnitude base false t
  | t => convertMagnitude base false t

/-- What `std::stoi` and its like throw. -/
inductive ConversionError
  | invalidArgument
  | outOfRange
deriving DecidableEq, Repr

/-- Where the digits start. -/
def afterSign (s : List Char) : List Char :=
  match s.dropWhile isSpace with
  | '-' :: t => t
  | '+' :: t => t
  | t => t

/-- `std::stoull(s, nullptr, base)`. -/
def stoull (base : Nat) (s : List Char) : Except ConversionError UInt64 :=
  match strtoull base s with
  | none => .error .invalidArgument
  | some v =>
    if 2 ^ 64 ≤ ofDigits base (leadingDigits base (dropHexPrefix base (afterSign s))) then
      .error .outOfRange
    else .ok v

/-- `stream << std::setfill(fill) << std::setw(width) << s`. -/
def setw (fill : Char) (width : Nat) (s : List Char) : List Char :=
  List.replicate (width - s.length) fill ++ s

/-! ### Numbers that fit -/

theorem ofDigits_append (base : Nat) (xs ys : List Nat) :
    ofDigits base (xs ++ ys) = ofDigits base xs * base ^ ys.length + ofDigits base ys := by
  have hfold : ∀ (ys : List Nat) (n : Nat), ys.foldl (fun n d => n * base + d) n =
      n * base ^ ys.length + ofDigits base ys := by
    intro ys
    induction ys with
    | nil => intro n; simp [ofDigits]
    | cons d ys ih =>
      intro n
      have h0 := ih (0 * base + d)
      rw [ofDigits, List.foldl_cons, List.foldl_cons, ih, h0, List.length_cons, pow_succ]
      ring
  rw [ofDigits, List.foldl_append, hfold]
  rfl

theorem ofDigits_cons (base d : Nat) (ds : List Nat) :
    ofDigits base (d :: ds) = d * base ^ ds.length + ofDigits base ds := by
  have h := ofDigits_append base [d] ds
  rwa [show ofDigits base [d] = d by simp [ofDigits]] at h

theorem ofDigits_eq_zero_iff {base : Nat} (hb : 0 < base) (ds : List Nat) :
    ofDigits base ds = 0 ↔ ∀ d ∈ ds, d = 0 := by
  induction ds with
  | nil => simp [ofDigits]
  | cons d ds ih =>
    have hpow : base ^ ds.length ≠ 0 := by positivity
    rw [ofDigits_cons, Nat.add_eq_zero_iff, ih, mul_eq_zero, or_iff_left hpow,
      List.forall_mem_cons]

/-- Digits in front of something else. -/
theorem leadingDigits_append {base : Nat} {s rest : List Char} {ds : List Nat}
    (h : s.map (digitVal base) = ds.map some)
    (hrest : ∀ c ∈ rest.head?, digitVal base c = none) : leadingDigits base (s ++ rest) = ds := by
  induction s generalizing ds with
  | nil =>
    obtain rfl := List.map_eq_nil_iff.1 h.symm
    cases rest with
    | nil => rfl
    | cons c rest =>
      have hc := hrest c rfl
      rw [List.nil_append, leadingDigits, hc]
  | cons c s ih =>
    cases ds with
    | nil => simp at h
    | cons d ds =>
      obtain ⟨hc, hs⟩ := List.cons.inj h
      rw [List.cons_append, leadingDigits, hc]
      show d :: leadingDigits base (s ++ rest) = d :: ds
      rw [ih hs]

/-- A text all of whose characters are digits. -/
theorem leadingDigits_eq {base : Nat} {s : List Char} {ds : List Nat}
    (h : s.map (digitVal base) = ds.map some) : leadingDigits base s = ds := by
  rw [← List.append_nil s]
  exact leadingDigits_append h (by simp)

theorem digitVal_isSome {base : Nat} {c : Char} (h : (digitVal base c).isSome) :
    isSpace c = false ∧ c ≠ '-' ∧ c ≠ '+' ∧ c ≠ 'x' ∧ c ≠ 'X' := by
  have hrange : '0' ≤ c ∧ c ≤ '9' ∨ 'a' ≤ c ∧ c ≤ 'f' ∨ 'A' ≤ c ∧ c ≤ 'F' := by
    by_contra hno
    push Not at hno
    obtain ⟨h1, h2, h3⟩ := hno
    unfold digitVal at h
    rw [if_neg (by simpa using h1), if_neg (by simpa using h2), if_neg (by simpa using h3)] at h
    simp at h
  refine ⟨?_, ?_, ?_, ?_, ?_⟩
  · by_contra hspace
    simp only [isSpace, Bool.not_eq_false, Bool.or_eq_true, decide_eq_true_eq] at hspace
    rcases hspace with ((((rfl | rfl) | rfl) | rfl) | rfl) | rfl <;> revert hrange <;> decide
  all_goals rintro rfl; revert hrange; decide

/-- A text that starts with neither a blank nor a sign. -/
theorem unsigned_front (base : Nat) {c : Char} (t : List Char) (hspace : isSpace c = false)
    (hminus : c ≠ '-') (hplus : c ≠ '+') :
    afterSign (c :: t) = c :: t ∧
      strtoull base (c :: t) = convertMagnitude base false (c :: t) ∧
      extractU16 base (c :: t) = extractMagnitude base false (c :: t) := by
  unfold afterSign strtoull extractU16
  rw [List.dropWhile_cons_of_neg (by simp [hspace])]
  split
  · next heq => exact absurd (List.cons.inj heq).1 hminus
  · next heq => exact absurd (List.cons.inj heq).1 hplus
  · exact ⟨rfl, rfl, rfl⟩

/-- A text of digits has neither a sign nor `0x` in front. -/
theorem digits_front {base : Nat} {s : List Char} (h : ∀ c ∈ s, (digitVal base c).isSome) :
    dropHexPrefix base s = s ∧ strtoull base s = convertMagnitude base false s ∧
      extractU16 base s = extractMagnitude base false s := by
  have hfront : dropHexPrefix base s = s := by
    unfold dropHexPrefix
    split
    · next x t =>
      obtain ⟨-, -, -, hx, hX⟩ := digitVal_isSome (h x (by simp))
      rw [if_neg (by simp [hx, hX])]
    · rfl
  refine ⟨hfront, ?_⟩
  cases s with
  | nil => exact ⟨rfl, rfl⟩
  | cons c t =>
    obtain ⟨hspace, hminus, hplus, -⟩ := digitVal_isSome (h c List.mem_cons_self)
    exact (unsigned_front base t hspace hminus hplus).2

theorem forall_digitVal_isSome {base : Nat} {s : List Char} {ds : List Nat}
    (h : s.map (digitVal base) = ds.map some) : ∀ c ∈ s, (digitVal base c).isSome := by
  intro c hc
  have hmem : digitVal base c ∈ ds.map some := h ▸ List.mem_map_of_mem hc
  obtain ⟨d, -, hd⟩ := List.mem_map.1 hmem
  rw [← hd, Option.isSome_some]

/-- A number in digits only. -/
theorem strtoull_eq {base : Nat} {s : List Char} {ds : List Nat} (hne : s ≠ [])
    (h : s.map (digitVal base) = ds.map some) :
    strtoull base s = some (min (ofDigits base ds) (2 ^ 64 - 1)).toUInt64 := by
  obtain ⟨hfront, hconvert, -⟩ := digits_front (forall_digitVal_isSome h)
  have hds : ds ≠ [] := by
    rintro rfl
    exact hne (List.map_eq_nil_iff.1 h)
  rw [hconvert]
  unfold convertMagnitude
  rw [hfront, leadingDigits_eq h]
  obtain ⟨d, ds, rfl⟩ := List.exists_cons_of_ne_nil hds
  by_cases hle : ofDigits base (d :: ds) ≤ 2 ^ 64 - 1
  · simp only [if_pos hle, Nat.min_eq_left hle, Bool.false_eq_true, if_false]
  · simp only [if_neg hle, Nat.min_eq_right (Nat.le_of_not_le hle)]

theorem digitVal_isDigit {c : Char} (h : c.isDigit) : digitVal 10 c = some (c.toNat - 48) := by
  obtain ⟨hlow, hhigh⟩ := Char.isDigit_iff_toNat.1 h
  have hrange : '0' ≤ c ∧ c ≤ '9' := ⟨hlow, hhigh⟩
  have hle : c.toNat ≤ 57 := hhigh
  have hlt : c.toNat - 48 < 10 := by omega
  unfold digitVal
  rw [if_pos hrange, Option.filter_some, if_pos (by simpa using hlt)]

theorem map_digitVal_isDigit {s : List Char} (h : ∀ c ∈ s, c.isDigit) :
    s.map (digitVal 10) = (s.map fun c => c.toNat - 48).map some := by
  rw [List.map_map]
  exact List.map_congr_left fun c hc => digitVal_isDigit (h c hc)

theorem ofDigits_chars (s : List Char) :
    ofDigits 10 (s.map fun c => c.toNat - 48) = Nat.ofDigitChars 10 s 0 := by
  rw [Nat.ofDigitChars_eq_foldl, ofDigits, List.foldl_map]
  simp only [Nat.mul_comm 10]
  rfl

/-- The number decimal digits write, as far as it fits. -/
theorem strtoull_isDigit {s : List Char} (hne : s ≠ []) (h : ∀ c ∈ s, c.isDigit) :
    strtoull 10 s = some (min (Nat.ofDigitChars 10 s 0) (2 ^ 64 - 1)).toUInt64 := by
  rw [strtoull_eq hne (map_digitVal_isDigit h), ofDigits_chars]

/-- The same number, read from a stream into 16 bits. -/
theorem extractU16_eq {base : Nat} {s : List Char} {ds : List Nat} (hne : s ≠ [])
    (h : s.map (digitVal base) = ds.map some) :
    extractU16 base s = (min (ofDigits base ds) 65535).toUInt16 := by
  obtain ⟨hfront, -, hextract⟩ := digits_front (forall_digitVal_isSome h)
  have hds : ds ≠ [] := by
    rintro rfl
    exact hne (List.map_eq_nil_iff.1 h)
  rw [hextract]
  unfold extractMagnitude
  rw [hfront, leadingDigits_eq h]
  obtain ⟨d, ds, rfl⟩ := List.exists_cons_of_ne_nil hds
  by_cases hle : ofDigits base (d :: ds) ≤ 65535
  · simp only [if_pos hle, Nat.min_eq_left hle, Bool.false_eq_true, if_false]
  · simp only [if_neg hle, Nat.min_eq_right (Nat.le_of_not_le hle)]
    rfl

/-- What is behind the digits is not read. -/
theorem stoull_append {base : Nat} {s rest : List Char} {ds : List Nat} (hne : s ≠ [])
    (h : s.map (digitVal base) = ds.map some) (hlt : ofDigits base ds < 2 ^ 64)
    (hrest : ∀ c ∈ rest.head?, digitVal base c = none ∧ c ≠ 'x' ∧ c ≠ 'X') :
    stoull base (s ++ rest) = .ok (ofDigits base ds).toUInt64 := by
  have hdigits := forall_digitVal_isSome h
  have hlead : leadingDigits base (s ++ rest) = ds :=
    leadingDigits_append h fun c hc => (hrest c hc).1
  obtain ⟨c, t, rfl⟩ := List.exists_cons_of_ne_nil hne
  obtain ⟨hspace, hminus, hplus, -⟩ := digitVal_isSome (hdigits c List.mem_cons_self)
  obtain ⟨hsign, hconvert, -⟩ := unsigned_front base (t ++ rest) hspace hminus hplus
  rw [List.cons_append] at hlead ⊢
  have hfront : dropHexPrefix base (c :: (t ++ rest)) = c :: (t ++ rest) := by
    unfold dropHexPrefix
    split
    · next x u heq =>
      -- the second character is a digit, or stands behind the digits
      have hx : x ≠ 'x' ∧ x ≠ 'X' := by
        obtain ⟨-, htail⟩ := List.cons.inj heq
        cases t with
        | nil =>
          rw [List.nil_append] at htail
          exact (hrest x (by rw [htail]; rfl)).2
        | cons d t =>
          obtain ⟨rfl, -⟩ := List.cons.inj htail
          obtain ⟨-, -, -, hx⟩ := digitVal_isSome (hdigits d (by simp))
          exact hx
      rw [if_neg (by simp [hx.1, hx.2]), heq]
    · rfl
  have hds : ds ≠ [] := by
    rintro rfl
    cases h
  unfold stoull
  rw [hconvert, hsign]
  unfold convertMagnitude
  rw [hfront, hlead]
  obtain ⟨d, ds, rfl⟩ := List.exists_cons_of_ne_nil hds
  have hle : ofDigits base (d :: ds) ≤ 2 ^ 64 - 1 := by omega
  simp only [if_pos hle, if_neg (Nat.not_le.2 hlt), Bool.false_eq_true, if_false]

theorem stoull_eq {base : Nat} {s : List Char} {ds : List Nat} (hne : s ≠ [])
    (h : s.map (digitVal base) = ds.map some) (hlt : ofDigits base ds < 2 ^ 64) :
    stoull base s = .ok (ofDigits base ds).toUInt64 := by
  rw [← List.append_nil s]
  exact stoull_append hne h hlt (by simp)

/-- The number decimal digits write, when it fits. -/
theorem stoull_isDigit {s : List Char} (hne : s ≠ []) (h : ∀ c ∈ s, c.isDigit)
    (hlt : Nat.ofDigitChars 10 s 0 < 2 ^ 64) :
    stoull 10 s = .ok (Nat.ofDigitChars 10 s 0).toUInt64 := by
  rw [← ofDigits_chars] at hlt ⊢
  exact stoull_eq hne (map_digitVal_isDigit h) hlt

theorem digitVal_lt {base d : Nat} {c : Char} (h : digitVal base c = some d) : d < base := by
  obtain ⟨-, hlt⟩ := Option.filter_eq_some_iff.1 h
  exact of_decide_eq_true hlt

/-- The digit that is written for `d`. -/
theorem digitVal_digitChar {base d : Nat} (hd : d < base) (hb : base ≤ 16) :
    digitVal base (Nat.digitChar d) = some d := by
  have h16 : d < 16 := by omega
  unfold digitVal
  interval_cases d <;> simp [Nat.digitChar, hd]

theorem map_digitVal_digitChar {base : Nat} {ds : List Nat} (hds : ∀ d ∈ ds, d < base)
    (hb : base ≤ 16) : (ds.map Nat.digitChar).map (digitVal base) = ds.map some := by
  rw [List.map_map, List.map_inj_left]
  intro d hd
  exact digitVal_digitChar (hds d hd) hb

/-- The digits that are written for a number are the digits of that number. -/
theorem exists_digits {base : Nat} (n : Nat) (hb : 1 < base) :
    ∃ ds, (∀ d ∈ ds, d < base) ∧ Nat.toDigits base n = ds.map Nat.digitChar ∧
      ofDigits base ds = n := by
  induction n using Nat.base_induction base hb with
  | single m hm =>
    refine ⟨[m], by simpa using hm, ?_, by simp [ofDigits]⟩
    rw [Nat.toDigits_of_lt_base hm, List.map_singleton]
  | digit m k hk hm ih =>
    obtain ⟨ds, hlt, hmap, hvalue⟩ := ih
    refine ⟨ds ++ [k], ?_, ?_, ?_⟩
    · rw [List.forall_mem_append]
      exact ⟨hlt, by simpa using hk⟩
    · rw [← Nat.toDigits_append_toDigits hb hm hk, List.map_append, hmap,
        Nat.toDigits_of_lt_base hk, List.map_singleton]
    · rw [ofDigits_append, hvalue, List.length_singleton, pow_one, Nat.mul_comm]
      simp [ofDigits]

/-- What is written in some base is read again. -/
theorem strtoull_toDigits {base n : Nat} (hb : 1 < base) (hb' : base ≤ 16) (hn : n < 2 ^ 64) :
    strtoull base (Nat.toDigits base n) = some n.toUInt64 := by
  obtain ⟨ds, hlt, hmap, hvalue⟩ := exists_digits n hb
  rw [strtoull_eq Nat.toDigits_ne_nil (by rw [hmap, map_digitVal_digitChar hlt hb']), hvalue,
    Nat.min_eq_left (by omega)]

/-! ### Numbers of a fixed width -/

theorem ofDigits_eq_reverse (base : Nat) (ds : List Nat) :
    ofDigits base ds = Nat.ofDigits base ds.reverse := by
  induction ds with
  | nil => rfl
  | cons d ds ih =>
    rw [ofDigits_cons, ih, List.reverse_cons, Nat.ofDigits_append, Nat.ofDigits_singleton,
      List.length_reverse]
    ring

theorem ofDigits_lt {base : Nat} {ds : List Nat} (hb : 1 < base) (hds : ∀ d ∈ ds, d < base) :
    ofDigits base ds < base ^ ds.length := by
  have h := @Nat.ofDigits_lt_base_pow_length base ds.reverse hb (by simpa using hds)
  rwa [← ofDigits_eq_reverse, List.length_reverse] at h

/-- As many digits as there are places write each number once. -/
theorem ofDigits_inj {base : Nat} {xs ys : List Nat} (hb : 1 < base)
    (hlen : xs.length = ys.length) (hx : ∀ d ∈ xs, d < base) (hy : ∀ d ∈ ys, d < base)
    (h : ofDigits base xs = ofDigits base ys) : xs = ys := by
  rw [ofDigits_eq_reverse, ofDigits_eq_reverse] at h
  refine List.reverse_injective ?_
  exact Nat.ofDigits_inj_of_len_eq hb (by simpa using hlen) (by simpa using hx)
    (by simpa using hy) h

/-- A number with zeros in front, as wide as `width`. -/
theorem exists_padded {base width n : Nat} (hb : 1 < base) (hwidth : 0 < width)
    (hn : n < base ^ width) :
    ∃ ds, ds.length = width ∧ (∀ d ∈ ds, d < base) ∧ ofDigits base ds = n ∧
      setw '0' width (Nat.toDigits base n) = ds.map Nat.digitChar := by
  obtain ⟨ds, hlt, hmap, hvalue⟩ := exists_digits n hb
  have hlen : ds.length ≤ width := by
    have h := (Nat.length_toDigits_le_iff hb hwidth).2 hn
    rwa [hmap, List.length_map] at h
  have hzero : ofDigits base (List.replicate (width - ds.length) 0) = 0 := by
    rw [ofDigits_eq_zero_iff (by omega)]
    intro d hd
    exact List.eq_of_mem_replicate hd
  refine ⟨List.replicate (width - ds.length) 0 ++ ds, ?_, ?_, ?_, ?_⟩
  · rw [List.length_append, List.length_replicate]
    omega
  · rw [List.forall_mem_append]
    refine ⟨fun d hd => ?_, hlt⟩
    rw [List.eq_of_mem_replicate hd]
    omega
  · rw [ofDigits_append, hzero, hvalue, Nat.zero_mul, Nat.zero_add]
  · rw [setw, hmap, List.length_map, List.map_append, List.map_replicate]
    rfl

theorem setw_toDigits {base : Nat} {ds : List Nat} (hb : 1 < base) (hne : ds ≠ [])
    (hds : ∀ d ∈ ds, d < base) :
    setw '0' ds.length (Nat.toDigits base (ofDigits base ds)) = ds.map Nat.digitChar := by
  obtain ⟨es, hlen, hlt, hvalue, htext⟩ :=
    exists_padded hb (List.length_pos_iff.2 hne) (ofDigits_lt hb hds)
  rw [htext, ofDigits_inj hb hlen hlt hds hvalue]

/-- `std::istream_iterator<std::string>` over a text: its words. -/
def words (s : List Char) : List (List Char) :=
  (s.splitOnP isSpace).filter fun w => !w.isEmpty

end Cxx
