import Sprawl.Tvm.Token

/-!
# Number literals

`kNumberLiteral` lets a literal have a `#` in front or not.  `LitValue` cuts off the first
character whatever it is, `U16Value` cuts off nothing: the first reads the literals with a
`#` (`litValue_iff`), the second those without (`u16Value_iff`), and only zero and
-32768, whose negation is the same 16 bits, are read by both (`literal_iff`).
-/

namespace Tvm

open Cxx RegExp

/-! ## What a literal denotes -/

/-- The parts of a literal. -/
structure Numeral where
  hash : Bool
  minus : Bool
  digits : List Nat
  digits_lt : ∀ d ∈ digits, d < 10
  /-- A zero stands alone. -/
  leading : digits = [0] ∨ ∃ d ds, digits = d :: ds ∧ d ≠ 0

def Numeral.unsigned (n : Numeral) : List Char := n.digits.map Nat.digitChar

def Numeral.signed (n : Numeral) : List Char :=
  (if n.minus then ['-'] else []) ++ n.unsigned

def Numeral.text (n : Numeral) : List Char := (if n.hash then ['#'] else []) ++ n.signed

def Numeral.magnitude (n : Numeral) : Nat := ofDigits 10 n.digits

def Numeral.value (n : Numeral) : Int := if n.minus then -n.magnitude else n.magnitude

/-- The text denotes the number. -/
def Denotes (text : List Char) (v : Int) : Prop := ∃ n : Numeral, n.text = text ∧ n.value = v

theorem Numeral.digits_ne_nil (n : Numeral) : n.digits ≠ [] := by
  rcases n.leading with h | ⟨d, ds, h, -⟩ <;> rw [h] <;> simp

theorem Numeral.map_digitVal (n : Numeral) :
    n.unsigned.map (digitVal 10) = n.digits.map some :=
  map_digitVal_digitChar n.digits_lt (by decide)

/-- The decimal digits are the characters of the digits. -/
theorem exists_map_digitChar {s : List Char} (h : ∀ c ∈ s, c ∈ Tvm.digits) :
    ∃ ds : List Nat, (∀ d ∈ ds, d < 10) ∧ s = ds.map Nat.digitChar := by
  have hall : ∀ c ∈ Tvm.digits, ∃ d < 10, c = Nat.digitChar d := by decide
  induction s with
  | nil => exact ⟨[], by simp, rfl⟩
  | cons c s ih =>
    obtain ⟨d, hd, rfl⟩ := hall c (h c List.mem_cons_self)
    obtain ⟨ds, hds, rfl⟩ := ih fun c hc => h c (List.mem_cons_of_mem _ hc)
    exact ⟨d :: ds, List.forall_mem_cons.2 ⟨hd, hds⟩, rfl⟩

theorem mem_opt_char (c : Char) (r : RegularExpression Char) (s : List Char) :
    s ∈ (opt (.char c) * r).matches' ↔
      ∃ (b : Bool) (t : List Char), s = (if b then [c] else []) ++ t ∧ t ∈ r.matches' := by
  rw [mem_mul]
  constructor
  · rintro ⟨a, t, rfl, ha, ht⟩
    rw [opt, mem_add, mem_one, mem_char] at ha
    rcases ha with rfl | rfl
    · exact ⟨false, t, rfl, ht⟩
    · exact ⟨true, t, rfl, ht⟩
  · rintro ⟨b, t, rfl, ht⟩
    refine ⟨_, t, rfl, ?_, ht⟩
    rw [opt, mem_add, mem_one, mem_char]
    cases b
    · exact .inl rfl
    · exact .inr rfl

/-- **Every literal denotes a number.** -/
theorem exists_numeral {t : Token} (h : t.type = .NumberLiteral) :
    ∃ n : Numeral, n.text = t.value := by
  have hm : t.value ∈ kNumberLiteral.matches' := classify_pattern (by rw [← Token.type, h]; rfl)
  obtain ⟨hash, s, hs, hsigned⟩ := (mem_opt_char _ _ _).1 hm
  obtain ⟨minus, s, rfl, hunsigned⟩ := (mem_opt_char _ _ _).1 hsigned
  rw [mem_add, mem_char, mem_oneOf_mul] at hunsigned
  rcases hunsigned with rfl | ⟨c, b, rfl, hc, hb⟩
  · exact ⟨⟨hash, minus, [0], by simp, .inl rfl⟩, hs.symm⟩
  · rw [mem_star_oneOf] at hb
    obtain ⟨ds, hds, rfl⟩ := exists_map_digitChar hb
    have hall : ∀ c ∈ "123456789".toList, ∃ d < 10, d ≠ 0 ∧ c = Nat.digitChar d := by decide
    obtain ⟨d, hd, hne, rfl⟩ := hall c hc
    exact ⟨⟨hash, minus, d :: ds, List.forall_mem_cons.2 ⟨hd, hds⟩, .inr ⟨d, ds, rfl, hne⟩⟩,
      hs.symm⟩

/-! ## Reading -/

theorem toNat_ofInt (x : Int) : (UInt16.ofInt x).toNat = (x % 65536).toNat :=
  UInt16.toNat_ofNat_of_lt' (by show (x % 65536).toNat < 65536; omega)

theorem ofInt_inj (x y : Int) : UInt16.ofInt x = UInt16.ofInt y ↔ x % 65536 = y % 65536 := by
  rw [← UInt16.toNat_inj, toNat_ofInt, toNat_ofInt]
  omega

theorem ofNat_eq_ofInt (n : Nat) : UInt16.ofNat n = UInt16.ofInt n := by
  rw [← UInt16.toNat_inj, toNat_ofInt, UInt16.toNat_ofNat']
  omega

section
variable {n : Numeral}

theorem extractU16_unsigned (hfits : n.magnitude ≤ 65535) :
    extractU16 10 n.unsigned = UInt16.ofInt n.magnitude := by
  have hne : n.unsigned ≠ [] := by
    unfold Numeral.unsigned
    simpa using n.digits_ne_nil
  have hmin : min (ofDigits 10 n.digits) 65535 = n.magnitude := Nat.min_eq_left hfits
  rw [extractU16_eq hne n.map_digitVal, hmin]
  exact ofNat_eq_ofInt n.magnitude

/-- A minus sign negates the 16 bits. -/
theorem extractU16_minus (hfits : n.magnitude ≤ 65535) :
    extractU16 10 ('-' :: n.unsigned) = UInt16.ofInt (-n.magnitude) := by
  obtain ⟨hfront, -⟩ := digits_front (forall_digitVal_isSome n.map_digitVal)
  have hmag : extractMagnitude 10 true n.unsigned = -UInt16.ofNat n.magnitude := by
    obtain ⟨d, ds, hds⟩ := List.exists_cons_of_ne_nil n.digits_ne_nil
    have hle : ofDigits 10 (d :: ds) ≤ 65535 := by
      rw [← hds]
      exact hfits
    unfold extractMagnitude
    rw [hfront, leadingDigits_eq n.map_digitVal, hds]
    simp only [if_pos hle, if_true]
    unfold Numeral.magnitude
    rw [hds]
  have hsign : extractU16 10 ('-' :: n.unsigned) = extractMagnitude 10 true n.unsigned := rfl
  rw [hsign, hmag, UInt16.ofInt_neg, ofNat_eq_ofInt]

/-- A number with its sign is read as that number mod 2^16. -/
theorem extractU16_signed (hfits : n.magnitude ≤ 65535) :
    extractU16 10 n.signed = UInt16.ofInt n.value := by
  unfold Numeral.signed Numeral.value
  cases n.minus with
  | false => exact extractU16_unsigned hfits
  | true => exact extractU16_minus hfits

/-- Without its first digit a number is another one, except for zero. -/
theorem extractU16_tail (hfits : n.magnitude ≤ 65535) :
    extractU16 10 (n.unsigned.drop 1) = UInt16.ofInt n.magnitude ↔ n.magnitude = 0 := by
  obtain ⟨d, ds, hds⟩ := List.exists_cons_of_ne_nil n.digits_ne_nil
  have hdrop : n.unsigned.drop 1 = ds.map Nat.digitChar := by
    unfold Numeral.unsigned
    rw [hds]
    rfl
  have hmag : n.magnitude = d * 10 ^ ds.length + ofDigits 10 ds := by
    unfold Numeral.magnitude
    rw [hds, ofDigits_cons]
  have hread : extractU16 10 (ds.map Nat.digitChar) = UInt16.ofInt (ofDigits 10 ds : Nat) := by
    by_cases hnil : ds = []
    · subst hnil
      rfl
    · have hlt : ∀ d ∈ ds, d < 10 := fun d hd => n.digits_lt d (hds ▸ List.mem_cons_of_mem _ hd)
      have hmin : min (ofDigits 10 ds) 65535 = ofDigits 10 ds := Nat.min_eq_left (by omega)
      rw [extractU16_eq (by simpa using hnil) (map_digitVal_digitChar hlt (by decide)), hmin]
      exact ofNat_eq_ofInt _
  rw [hdrop, hread, ofInt_inj]
  constructor
  · intro h
    -- the first digit counts nothing, so it is the zero that stands alone
    have hzero : d * 10 ^ ds.length = 0 := by omega
    have hd : d = 0 := by
      rcases Nat.mul_eq_zero.1 hzero with hd | hpow
      · exact hd
      · exact absurd hpow (by positivity)
    rcases n.leading with halone | ⟨e, es, hes, hne⟩
    · unfold Numeral.magnitude
      rw [halone]
      rfl
    · rw [hds] at hes
      cases hes
      exact absurd hd hne
  · intro h
    omega

end

/-- `-32768 ≤ v ≤ 65535`. -/
def InRange (v : Int) : Prop := -32768 ≤ v ∧ v ≤ 65535

theorem Numeral.magnitude_le {n : Numeral} (h : InRange n.value) : n.magnitude ≤ 65535 := by
  unfold InRange Numeral.value at h
  split at h <;> omega

/-- A literal without a minus sign starts with a digit. -/
theorem Numeral.head_unsigned (n : Numeral) : n.unsigned.head? ≠ some '#' := by
  have hdigit : ∀ d < 10, Nat.digitChar d ≠ '#' := by decide
  obtain ⟨d, ds, hds⟩ := List.exists_cons_of_ne_nil n.digits_ne_nil
  unfold Numeral.unsigned
  rw [hds, List.map_cons, List.head?_cons]
  intro h
  exact hdigit d (n.digits_lt d (hds ▸ List.mem_cons_self)) (Option.some.inj h)

/-- The three shapes of a literal. -/
theorem Numeral.shape (n : Numeral) :
    n.text = '#' :: n.signed ∨
      n.text = n.signed ∧ n.text.head? ≠ some '#' ∧
        (n.signed = '-' :: n.unsigned ∧ n.value = -n.magnitude ∨
          n.signed = n.unsigned ∧ n.value = n.magnitude) := by
  unfold Numeral.text
  cases n.hash with
  | true => exact .inl rfl
  | false =>
    refine .inr ⟨rfl, ?_, ?_⟩
    · show n.signed.head? ≠ some '#'
      unfold Numeral.signed
      cases n.minus with
      | true => simp
      | false => exact n.head_unsigned
    · unfold Numeral.signed Numeral.value
      cases n.minus with
      | true => exact .inl ⟨rfl, rfl⟩
      | false => exact .inr ⟨rfl, rfl⟩

section
variable {t : Token} {v : Int}

/-- **`LitValue` reads the literals with a `#`.** -/
theorem litValue_iff (hv : Denotes t.value v) (hrange : InRange v) :
    t.litValue = UInt16.ofInt v ↔ t.value.head? = some '#' ∨ v = 0 ∨ v = -32768 := by
  obtain ⟨n, htext, rfl⟩ := hv
  have hfits := Numeral.magnitude_le hrange
  unfold Token.litValue
  unfold InRange at hrange
  rw [← htext]
  rcases n.shape with hhash | ⟨hsigned, hhead, hminus | hplus⟩
  · rw [hhash]
    exact iff_of_true (extractU16_signed hfits) (.inl rfl)
  · have hread : extractU16 10 (n.text.drop 1) = UInt16.ofInt n.magnitude := by
      rw [hsigned, hminus.1]
      exact extractU16_unsigned hfits
    rw [hread, or_iff_right hhead, ofInt_inj]
    omega
  · have hread := extractU16_tail hfits
    rw [or_iff_right hhead, hsigned, hplus.1, hplus.2, hread]
    omega

/-- **`U16Value` reads the literals without one.** -/
theorem u16Value_iff (hv : Denotes t.value v) (hrange : InRange v) :
    t.u16Value = UInt16.ofInt v ↔ t.value.head? ≠ some '#' ∨ v = 0 := by
  obtain ⟨n, htext, rfl⟩ := hv
  have hfits := Numeral.magnitude_le hrange
  unfold Token.u16Value
  unfold InRange at hrange
  rw [← htext]
  rcases n.shape with hhash | ⟨hsigned, hhead, -⟩
  · have hread : extractU16 10 n.text = UInt16.ofInt 0 := by
      rw [hhash, (unsigned_front 10 n.signed (by decide) (by decide) (by decide)).2.2]
      rfl
    have hhead : ¬ n.text.head? ≠ some '#' := by
      rw [hhash]
      exact fun h => h rfl
    rw [hread, or_iff_right hhead, ofInt_inj]
    omega
  · refine iff_of_true ?_ (.inl hhead)
    rw [hsigned]
    exact extractU16_signed hfits

/-- **Both read a literal right exactly when it is zero, or -32768 without a `#`.** -/
theorem literal_iff (hv : Denotes t.value v) (hrange : InRange v) :
    (t.litValue = UInt16.ofInt v ∧ t.u16Value = UInt16.ofInt v) ↔
      v = 0 ∨ v = -32768 ∧ t.value.head? ≠ some '#' := by
  rw [litValue_iff hv hrange, u16Value_iff hv hrange]
  tauto

end

/-- The literal `-32768`. -/
def lowest : Numeral where
  hash := false
  minus := true
  digits := [3, 2, 7, 6, 8]
  digits_lt := by decide
  leading := .inr ⟨3, [2, 7, 6, 8], rfl, by decide⟩

theorem literal_iff_lowest :
    (Token.litValue ⟨"-32768".toList, 1, 0⟩ = UInt16.ofInt (-32768) ∧
        Token.u16Value ⟨"-32768".toList, 1, 0⟩ = UInt16.ofInt (-32768)) ↔
      (-32768 : Int) = 0 ∨
        (-32768 : Int) = -32768 ∧ "-32768".toList.head? ≠ some '#' :=
  @literal_iff ⟨"-32768".toList, 1, 0⟩ (-32768) ⟨lowest, rfl, rfl⟩ ⟨by decide, by decide⟩

/-- `12` is read as 2 where `#12` is meant, and `#12` as 0 where `12` is meant. -/
theorem not_literal :
    ¬ ∀ (t : Token) (v : Int), t.type = .NumberLiteral → Denotes t.value v → InRange v →
      t.litValue = UInt16.ofInt v ∧ t.u16Value = UInt16.ofInt v := by
  intro h
  have hread := h ⟨"12".toList, 1, 0⟩ 12 (by decide +kernel)
    ⟨⟨false, false, [1, 2], by decide, .inr ⟨1, [2], rfl, by decide⟩⟩, rfl, rfl⟩
    ⟨by decide, by decide⟩
  exact absurd hread.1 (by decide)

end Tvm
