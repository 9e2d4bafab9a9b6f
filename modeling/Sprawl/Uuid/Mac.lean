import Sprawl.Lib.LittleEndian
import Sprawl.Lib.Loop
import Sprawl.Lib.Text

/-!
# Reading a MAC address (`uuid/mac.cc`)

The loop of `MacStringToInt` reads the octets that end at a `:`; the last one is cut by a
length made for a trailing newline, and read only where two more characters stand there.
`start` is an `unsigned`, from the `0U` it is initialized with, so that it wraps behind
2^32 characters, back to colons that were read before.

The number of the octets is what comes out exactly when the last one starts below 2^32 and
is followed by a newline, or is not cut short, or adds nothing (`macStringToInt_iff`).
-/

namespace Uuid

open Cxx LittleEndian Loop Text

/-! ## The code -/

/-- The variables of the loop; `end` is none at `npos`. -/
structure MacState where
  ret : UInt64
  start : UInt32
  end_ : Option Nat
deriving DecidableEq

/-- `ret = (ret << 8) | std::stoul(octet, 0, 16)` -/
def addOctet (ret : UInt64) (octet : List Char) : Except Stop UInt64 :=
  match stoull 16 octet with
  | .error _ => .error .exception
  | .ok v => .ok (ret <<< 8 ||| v)

/-- What is behind the loop; `mac_string.size() - 1` is a `size_t`. -/
def lastOctet (mac : Sized Char) (s : MacState) : Except Stop UInt64 :=
  if s.start.toNat < decr mac.elems.length then do
    let octet ← substr mac.elems s.start.toNat (decr mac.elems.length)
    addOctet s.ret octet
  else .ok s.ret

/-- One turn of `while (end != std::string::npos)`. -/
def macBody (mac : Sized Char) (s : MacState) : Turn MacState (Except Stop UInt64) :=
  match s.end_ with
  | none => .done (lastOctet mac s)
  | some end_ =>
    match substr mac.elems s.start.toNat (end_ - s.start.toNat) >>= addOctet s.ret with
    | .error e => .done (.error e)
    | .ok ret =>
      let start := (end_ + 1).toUInt32
      .again { ret, start, end_ := find mac.elems [':'] start.toNat }

/-- `MacStringToInt(mac_string)` ends with `r`. -/
def MacStringToInt (mac : Sized Char) (r : Except Stop UInt64) : Prop :=
  Returns (macBody mac) { ret := 0, start := 0, end_ := find mac.elems [':'] 0 } r

/-! ## Octets -/

/-- One or two hexadecimal digits. -/
structure Octet where
  digits : List Char
  short : digits.length = 1 ∨ digits.length = 2
  hex : ∀ c ∈ digits, (digitVal 16 c).isSome

def Octet.value (o : Octet) : Nat := ofDigits 16 (o.digits.filterMap (digitVal 16))

/-- The big-endian number of the octets. -/
def number (os : List Octet) : Nat := ofDigits 256 (os.map Octet.value)

/-- The octets joined by `:`, with or without a newline behind them. -/
def write (os : List Octet) (newline : Bool) : List Char :=
  [':'].intercalate (os.map Octet.digits) ++ if newline then ['\n'] else []

/-- Where the octet behind these starts. -/
def startOf (os : List Octet) : Nat := (os.map fun o => o.digits.length + 1).sum

/-- The last octet is read as it stands, or does not show. -/
def LastRead (init : List Octet) (last : Octet) (newline : Bool) : Prop :=
  newline = true ∨
    last.digits.length = 2 ∧ (init ≠ [] ∨ last.value = 0) ∨
    last.digits.length = 1 ∧ number init % 2 ^ 64 = last.value * 0x0101010101010101

/-! ### Values -/

namespace Octet
variable (o : Octet)

theorem ne_nil : o.digits ≠ [] := by
  intro h
  rcases o.short with hlen | hlen <;> simp [h] at hlen

theorem map_digitVal :
    o.digits.map (digitVal 16) = (o.digits.filterMap (digitVal 16)).map some := by
  have hhex := o.hex
  generalize o.digits = s at hhex
  induction s with
  | nil => rfl
  | cons c s ih =>
    obtain ⟨hc, hs⟩ := List.forall_mem_cons.1 hhex
    obtain ⟨d, hd⟩ := Option.isSome_iff_exists.1 hc
    rw [List.map_cons, List.filterMap_cons_some hd, List.map_cons, ih hs, hd]

theorem value_lt_pow : o.value < 16 ^ o.digits.length := by
  have hdigits : ∀ d ∈ o.digits.filterMap (digitVal 16), d < 16 := by
    intro d hd
    obtain ⟨c, -, hc⟩ := List.mem_filterMap.1 hd
    exact digitVal_lt hc
  exact Nat.lt_of_lt_of_le (ofDigits_lt (by decide) hdigits)
    (Nat.pow_le_pow_right (by decide) (List.length_filterMap_le _ _))

theorem value_lt : o.value < 256 := by
  have h := o.value_lt_pow
  rcases o.short with hlen | hlen <;> rw [hlen] at h <;> omega

theorem no_colon : ':' ∉ o.digits := by
  intro h
  exact absurd (o.hex ':' h) (by decide)

theorem stoull_digits : stoull 16 o.digits = .ok o.value.toUInt64 := by
  refine stoull_eq o.ne_nil o.map_digitVal ?_
  have h := o.value_lt
  show o.value < 2 ^ 64
  omega

theorem stoull_newline : stoull 16 (o.digits ++ ['\n']) = .ok o.value.toUInt64 := by
  have h := o.value_lt
  refine stoull_append o.ne_nil o.map_digitVal (show o.value < 2 ^ 64 by omega) ?_
  intro c hc
  obtain rfl := Option.some.inj hc
  decide

/-- Where two digits are cut to one. -/
theorem stoull_cut (h : o.digits.length = 2) :
    stoull 16 (o.digits.take 1) = .ok (o.value / 16).toUInt64 := by
  have hmap := o.map_digitVal
  unfold value
  generalize o.digits.filterMap (digitVal 16) = ds at hmap ⊢
  obtain ⟨c₁, c₂, hdigits⟩ := List.length_eq_two.1 h
  rw [hdigits] at hmap ⊢
  obtain ⟨d₁, d₂, rfl⟩ : ∃ d₁ d₂, ds = [d₁, d₂] := by
    have hlen := congrArg List.length hmap
    rw [List.length_map, List.length_map] at hlen
    exact List.length_eq_two.1 hlen.symm
  obtain ⟨h₁, h₂⟩ := List.cons.inj hmap
  have hlt₁ := digitVal_lt h₁
  have hlt₂ := digitVal_lt (List.cons.inj h₂).1
  have hone : ofDigits 16 [d₁] = d₁ := by simp [ofDigits]
  have htwo : ofDigits 16 [d₁, d₂] / 16 = d₁ := by
    rw [ofDigits_cons]
    simp only [List.length_singleton, Nat.pow_one]
    have hlast : ofDigits 16 [d₂] = d₂ := by simp [ofDigits]
    omega
  rw [htwo, ← hone]
  refine stoull_eq (List.cons_ne_nil _ _) ?_ (by omega)
  show [digitVal 16 c₁] = [some d₁]
  rw [h₁]

end Octet

/-- One more octet is shifted in. -/
theorem shift_or_toNat (ret : UInt64) {v : Nat} (hv : v < 256) :
    (ret <<< 8 ||| v.toUInt64).toNat = (ret.toNat * 256 + v) % 2 ^ 64 := by
  have hlow : v.toUInt64.toNat = v := UInt64.toNat_ofNat_of_lt' (by
    show v < 2 ^ 64
    omega)
  rw [toNat_shiftLeft_or ret (by omega), hlow]

/-! ## The text -/

/-- The octets with a colon behind each. -/
def joined (os : List Octet) : List Char := os.flatMap fun o => o.digits ++ [':']

theorem length_joined (os : List Octet) : (joined os).length = startOf os := by
  simp [joined, startOf, List.length_flatMap]

theorem write_concat (init : List Octet) (last : Octet) (newline : Bool) :
    write (init ++ [last]) newline =
      joined init ++ (last.digits ++ if newline then ['\n'] else []) := by
  unfold write
  rw [← List.append_assoc]
  congr 1
  induction init with
  | nil => simp [joined]
  | cons o init ih =>
    have hne : (init ++ [last]).map Octet.digits ≠ [] := by simp
    rw [List.cons_append, List.map_cons, List.intercalate_cons_of_ne_nil hne, ih]
    simp [joined]

/-! ## The loop -/

/-- In front of the octet at `pos`. -/
def stateAt (mac : Sized Char) (ret : UInt64) (pos : Nat) : MacState :=
  { ret, start := pos.toUInt32, end_ := find mac.elems [':'] pos }

/-- The octets shifted in one after the other. -/
def shiftAll (ret : UInt64) (os : List Octet) : UInt64 :=
  os.foldl (fun ret o => ret <<< 8 ||| o.value.toUInt64) ret

theorem number_concat (os : List Octet) (o : Octet) :
    number (os ++ [o]) = number os * 256 + o.value := by
  unfold number
  rw [List.map_append, ofDigits_append]
  simp [ofDigits]

theorem shiftAll_toNat (os : List Octet) : (shiftAll 0 os).toNat = number os % 2 ^ 64 := by
  induction os using List.reverseRecOn with
  | nil => rfl
  | append_singleton os o ih =>
    rw [shiftAll, List.foldl_append]
    show (shiftAll 0 os <<< 8 ||| o.value.toUInt64).toNat = _
    rw [shift_or_toNat _ o.value_lt, ih, number_concat]
    omega

theorem toUInt32_toNat {pos : Nat} (h : pos < 2 ^ 32) : pos.toUInt32.toNat = pos :=
  UInt32.toNat_ofNat_of_lt' h

section
variable {mac : Sized Char} {pre post : List Char}

/-- One octet and the colon behind it. -/
theorem macBody_octet {o : Octet} (hmac : mac.elems = pre ++ (o.digits ++ ':' :: post))
    (hpos : pre.length + (o.digits.length + 1) < 2 ^ 32) (ret : UInt64) :
    macBody mac (stateAt mac ret pre.length) =
      .again (stateAt mac (ret <<< 8 ||| o.value.toUInt64)
        (pre.length + (o.digits.length + 1))) := by
  have hfind : find mac.elems [':'] pre.length = some (pre.length + o.digits.length) := by
    rw [hmac]
    exact find_delim o.no_colon
  have hstart : pre.length.toUInt32.toNat = pre.length := toUInt32_toNat (by omega)
  have hlen : pre.length + o.digits.length - pre.length = o.digits.length := by omega
  have hcut : substr mac.elems pre.length o.digits.length = .ok o.digits := by
    rw [hmac]
    exact substr_between pre o.digits (':' :: post)
  have hnext : (pre.length + o.digits.length + 1).toUInt32.toNat =
      pre.length + (o.digits.length + 1) := toUInt32_toNat hpos
  unfold macBody stateAt
  simp only [hfind, hstart, hlen, hcut, ok_bind, addOctet, o.stoull_digits, hnext]
  rfl

/-- All the octets that a colon follows. -/
theorem reach_octets (os : List Octet) (hmac : mac.elems = pre ++ (joined os ++ post))
    (hpos : pre.length + startOf os < 2 ^ 32) (ret : UInt64) :
    Reach (macBody mac) (stateAt mac ret pre.length)
      (stateAt mac (shiftAll ret os) (pre.length + startOf os)) := by
  induction os generalizing pre ret with
  | nil => exact Reach.refl _
  | cons o os ih =>
    have hstart : startOf (o :: os) = o.digits.length + 1 + startOf os := by simp [startOf]
    have hfront : mac.elems = pre ++ (o.digits ++ ':' :: (joined os ++ post)) := by
      rw [hmac]
      simp [joined]
    have hlen : (pre ++ (o.digits ++ [':'])).length = pre.length + (o.digits.length + 1) := by simp
    rw [hstart] at hpos ⊢
    have hrest := @ih (pre ++ (o.digits ++ [':'])) (by rw [hmac]; simp [joined])
      (by rw [hlen]; omega) (ret <<< 8 ||| o.value.toUInt64)
    rw [hlen, Nat.add_assoc] at hrest
    exact Reach.head (macBody_octet hfront (by omega) ret) hrest

end

section
variable {init : List Octet} {last : Octet} {newline : Bool} {mac : Sized Char}
  (hmac : mac.elems = write (init ++ [last]) newline)
include hmac

/-- Where the last octet starts within 32 bits, the loop ends in front of it. -/
theorem returns_last (hstart : startOf init < 2 ^ 32) (r : Except Stop UInt64) :
    MacStringToInt mac r ↔
      r = lastOctet mac ⟨shiftAll 0 init, (startOf init).toUInt32, none⟩ := by
  rw [write_concat] at hmac
  have hreach := @reach_octets mac [] _ init hmac (by rw [List.length_nil]; omega) 0
  rw [List.length_nil, Nat.zero_add] at hreach
  have hnone : find mac.elems [':'] (startOf init) = none := by
    have hcolon : ':' ∉ last.digits ++ if newline then ['\n'] else [] := by
      rw [List.mem_append, not_or]
      exact ⟨last.no_colon, by cases newline <;> decide⟩
    rw [hmac, ← length_joined]
    exact find_no_delim hcolon
  have hdone : macBody mac (stateAt mac (shiftAll 0 init) (startOf init)) =
      .done (lastOctet mac ⟨shiftAll 0 init, (startOf init).toUInt32, none⟩) := by
    unfold macBody stateAt
    simp only [hnone]
  exact hreach.returns_iff.trans (returns_done_iff hdone)

/-- Where it starts behind, there is always a colon left. -/
theorem not_returns_wrapped (hstart : 2 ^ 32 ≤ startOf init) (v : UInt64) :
    ¬ MacStringToInt mac (.ok v) := by
  have hcolon : mac.elems[startOf init - 1]? = some ':' := by
    have hlen := length_joined init
    have hlast : (joined init).getLast? = some ':' := by
      rcases List.eq_nil_or_concat init with rfl | ⟨os, o, rfl⟩
      · exact absurd hstart (by decide)
      · have hconcat : joined (os ++ [o]) = joined os ++ o.digits ++ [':'] := by simp [joined]
        rw [List.concat_eq_append, hconcat, List.getLast?_concat]
    rw [hmac, write_concat, List.getElem?_append_left (by omega), ← hlen,
      ← List.getLast?_eq_getElem?, hlast]
  have hfind : ∀ pos < 2 ^ 32, find mac.elems [':'] pos ≠ none := by
    intro pos hpos hnone
    have hle : startOf init - 1 ≤ mac.elems.length :=
      Nat.le_of_lt (List.getElem?_eq_some_iff.1 hcolon).1
    exact find_eq_none.1 hnone _ (by omega) hle (delim_prefix_iff.2 hcolon)
  have hstep : ∀ s t, s.end_ ≠ none → macBody mac s = .again t → t.end_ ≠ none := by
    intro s t _ hagain
    unfold macBody at hagain
    split at hagain
    · cases hagain
    · split at hagain
      · cases hagain
      · obtain rfl := Turn.again.inj hagain
        exact hfind _ (UInt32.toNat_lt _)
  intro h
  obtain ⟨t, ht, hdone⟩ := h.invariant _ hstep (hfind 0 (by decide))
  unfold macBody at hdone
  split at hdone
  · next hend => exact ht hend
  · split at hdone
    · cases hdone
    · cases hdone

/-! ## The last octet -/

theorem length_mac : mac.elems.length =
    startOf init + last.digits.length + if newline then 1 else 0 := by
  rw [hmac, write_concat, List.length_append, length_joined, List.length_append, ← Nat.add_assoc]
  cases newline <;> rfl

/-- What is cut out: of the last octet and what follows it, as many characters as the text
has in front of its last one. -/
theorem substr_last : substr mac.elems (startOf init) (mac.elems.length - 1) =
    .ok ((last.digits ++ if newline then ['\n'] else []).take (mac.elems.length - 1)) := by
  have hlen := length_joined init
  unfold substr
  rw [if_pos (by rw [length_mac hmac]; omega)]
  congr 2
  rw [hmac, write_concat, ← hlen, List.drop_left]

section
variable (hstart : startOf init < 2 ^ 32)
include hstart

theorem lastOctet_eq (ret : UInt64) : lastOctet mac ⟨ret, (startOf init).toUInt32, none⟩ =
    if startOf init < mac.elems.length - 1 then
      addOctet ret ((last.digits ++ if newline then ['\n'] else []).take (mac.elems.length - 1))
    else .ok ret := by
  have hlen := length_mac hmac
  have hsize := mac.size_lt
  have hshort := last.short
  have hdecr : decr mac.elems.length = mac.elems.length - 1 := by
    unfold decr
    omega
  unfold lastOctet
  simp only [toUInt32_toNat hstart, hdecr, substr_last hmac, ok_bind]

/-- The last octet is read whole in front of a newline, or with two digits behind others. -/
theorem lastOctet_whole (h : newline = true ∨ last.digits.length = 2 ∧ init ≠ []) :
    lastOctet mac ⟨shiftAll 0 init, (startOf init).toUInt32, none⟩ =
      .ok (shiftAll 0 (init ++ [last])) := by
  have hlen := length_mac hmac
  have hshort := last.short
  have hshift : shiftAll 0 (init ++ [last]) = shiftAll 0 init <<< 8 ||| last.value.toUInt64 := by
    rw [shiftAll, List.foldl_append]
    rfl
  rw [lastOctet_eq hmac hstart, hshift]
  rcases h with rfl | ⟨htwo, hne⟩
  · simp only [if_true] at hlen ⊢
    rw [if_pos (by omega)]
    by_cases hzero : startOf init = 0
    · -- the only octet: the cut takes the newline away
      rw [List.take_left' (by omega), addOctet, last.stoull_digits]
    · rw [List.take_of_length_le (by simp; omega), addOctet, last.stoull_newline]
  · have hpos : 0 < startOf init := by
      obtain ⟨o, os, rfl⟩ := List.exists_cons_of_ne_nil hne
      simp only [startOf, List.map_cons, List.sum_cons]
      omega
    cases newline with
    | true =>
      simp only [if_true] at hlen ⊢
      rw [if_pos (by omega), List.take_of_length_le (by simp; omega), addOctet,
        last.stoull_newline]
    | false =>
      simp only [Bool.false_eq_true, if_false, List.append_nil] at hlen ⊢
      rw [if_pos (by omega), List.take_of_length_le (by omega), addOctet, last.stoull_digits]

/-- One digit at the end of the text is not read. -/
theorem lastOctet_skipped (hnewline : newline = false) (h : last.digits.length = 1) :
    lastOctet mac ⟨shiftAll 0 init, (startOf init).toUInt32, none⟩ = .ok (shiftAll 0 init) := by
  have hlen := length_mac hmac
  subst hnewline
  simp only [Bool.false_eq_true, if_false] at hlen
  rw [lastOctet_eq hmac hstart, if_neg (by omega)]

end

/-- Two digits that are the whole text lose the second one. -/
theorem lastOctet_cut (hinit : init = []) (hnewline : newline = false)
    (h : last.digits.length = 2) :
    lastOctet mac ⟨shiftAll 0 init, (startOf init).toUInt32, none⟩ =
      .ok ((0 : UInt64) <<< 8 ||| (last.value / 16).toUInt64) := by
  have hlen := length_mac hmac
  have hzero : startOf init = 0 := by
    rw [hinit]
    rfl
  subst hnewline
  simp only [Bool.false_eq_true, if_false, hzero, h] at hlen
  rw [lastOctet_eq hmac (by omega), if_pos (by omega), hlen]
  simp only [Bool.false_eq_true, if_false, List.append_nil]
  rw [show 0 + 2 + 0 - 1 = 1 from rfl, addOctet, last.stoull_cut h, hinit]
  rfl

end

/-! ## The result -/

/-- When one octet more or less is the same number. -/
theorem shift_eq_iff (n : Nat) {v : Nat} (hv : v < 16) :
    n % 2 ^ 64 = (n * 256 + v) % 2 ^ 64 ↔ n % 2 ^ 64 = v * 0x0101010101010101 := by
  omega

/-- **The number of the octets comes out exactly when the last one starts within 32 bits and
is read as it stands, or does not show.** -/
theorem macStringToInt_iff (init : List Octet) (last : Octet) (newline : Bool) (mac : Sized Char)
    (hmac : mac.elems = write (init ++ [last]) newline) :
    (∃ v, MacStringToInt mac (.ok v) ∧ v.toNat = number (init ++ [last]) % 2 ^ 64) ↔
      startOf init < 2 ^ 32 ∧ LastRead init last newline := by
  by_cases hstart : startOf init < 2 ^ 32
  · have hvalue : ∀ {v : UInt64},
        lastOctet mac ⟨shiftAll 0 init, (startOf init).toUInt32, none⟩ = .ok v →
        ((∃ v, MacStringToInt mac (.ok v) ∧ v.toNat = number (init ++ [last]) % 2 ^ 64) ↔
          v.toNat = number (init ++ [last]) % 2 ^ 64) := by
      intro v hv
      constructor
      · rintro ⟨v', hret, hnumber⟩
        rw [returns_last hmac hstart, hv] at hret
        rwa [← Except.ok.inj hret]
      · intro hnumber
        exact ⟨v, (returns_last hmac hstart _).2 hv.symm, hnumber⟩
    have hlt := last.value_lt
    rw [and_iff_right hstart]
    unfold LastRead
    by_cases hwhole : newline = true ∨ last.digits.length = 2 ∧ init ≠ []
    · rw [hvalue (lastOctet_whole hmac hstart hwhole), shiftAll_toNat]
      refine iff_of_true rfl ?_
      rcases hwhole with hnewline | ⟨htwo, hne⟩
      · exact .inl hnewline
      · exact .inr (.inl ⟨htwo, .inl hne⟩)
    · rw [not_or, not_and, not_not, Bool.not_eq_true] at hwhole
      obtain ⟨hnewline, honly⟩ := hwhole
      rcases last.short with hone | htwo
      · rw [hvalue (lastOctet_skipped hmac hstart hnewline hone), shiftAll_toNat, number_concat]
        have hdigit := last.value_lt_pow
        rw [hone] at hdigit
        rw [shift_eq_iff _ hdigit]
        simp [hnewline, hone]
      · have hinit := honly htwo
        rw [hvalue (lastOctet_cut hmac hinit hnewline htwo), shift_or_toNat _ (by omega),
          number_concat, hinit]
        have hzero : number [] = 0 := rfl
        rw [UInt64.toNat_zero, hzero, Nat.mod_eq_of_lt (by omega), Nat.mod_eq_of_lt (by omega)]
        constructor
        · intro hsame
          exact .inr (.inl ⟨htwo, .inr (by omega)⟩)
        · rintro (hfalse | ⟨-, hne | hzero⟩ | ⟨hone, -⟩)
          · rw [hnewline] at hfalse
            cases hfalse
          · exact absurd rfl hne
          · rw [hzero]
          · omega
  · refine iff_of_false ?_ (fun h => hstart h.1)
    rintro ⟨v, hret, -⟩
    exact not_returns_wrapped hmac (by omega) v hret

def aa : Octet := ⟨"aa".toList, by decide, by decide⟩

theorem macStringToInt_iff_aa :
    (∃ v, MacStringToInt ⟨"aa:aa:aa:aa:aa:aa".toList, by decide⟩ (.ok v) ∧
        v.toNat = number (List.replicate 5 aa ++ [aa]) % 2 ^ 64) ↔
      startOf (List.replicate 5 aa) < 2 ^ 32 ∧ LastRead (List.replicate 5 aa) aa false :=
  macStringToInt_iff (List.replicate 5 aa) aa false _ (by decide)

/-- Of `aa:b` only the first octet is read. -/
theorem not_macStringToInt :
    ¬ ∀ (os : List Octet) (newline : Bool) (mac : Sized Char), os ≠ [] →
      mac.elems = write os newline →
      ∃ v, MacStringToInt mac (.ok v) ∧ v.toNat = number os % 2 ^ 64 := by
  intro h
  obtain ⟨v, hret, hvalue⟩ := h [aa, ⟨"b".toList, by decide, by decide⟩] false
    ⟨"aa:b".toList, by decide⟩ (by decide) (by decide)
  have hmac : "aa:b".toList = write ([aa] ++ [⟨"b".toList, by decide, by decide⟩]) false := by
    decide
  rw [returns_last hmac (by decide), lastOctet_skipped hmac (by decide) rfl rfl] at hret
  rw [Except.ok.inj hret] at hvalue
  exact absurd hvalue (by decide)

end Uuid
