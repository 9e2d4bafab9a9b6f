import Sprawl.Lib.LittleEndian
import Sprawl.Tvm.Pointers

/-!
# `tvmc -c` (`Session::CompileFile` of `tvm/tvmc.cc`)

The compiler is the three passes and a file of the image's words, each with its
high byte first.  Of the tokens the passes look at the texts only
(`compiles_lineless`): where a token stands, and what stands between two of them,
does not reach the file, nor the error, nor whether there is an end
(`compileFile_layout`).

A file is written exactly for the rows that `BuildSymtab` and `Encode` get through
and that emit no more words than an image holds; it holds those words
(`compileFile_ok_iff`).
-/

namespace Tvm

open Cxx Loop

/-! ## The file -/

/-- `htons` where the low byte of a word comes first. -/
def htons (v : UInt16) : UInt16 := (v <<< 8) ||| (v >>> 8)

/-- The bytes at `&v`, there. -/
def bytesOf (v : UInt16) : List UInt8 := [v.toUInt8, (v >>> 8).toUInt8]

/-- What the loop over `image.data_` writes. -/
def Image.file (img : Image) : List UInt8 := img.words.flatMap fun w => bytesOf (htons w)

/-- `CompileFile` on a file of this text ends with `r`: with the bytes of `filename_ + ".bin"`,
or before it is opened. -/
def CompileFile (text : List Char) (r : Except Stop (List UInt8)) : Prop :=
  match tokenize text with
  | .error e => r = .error e
  | .ok tokens => ∃ inset, Parse tokens inset ∧ r = (inset.bind encode).map Image.file

theorem htons_toUInt8 (v : UInt16) : (htons v).toUInt8 = (v >>> 8).toUInt8 := by
  unfold htons
  apply UInt8.toBitVec_inj.1
  simp

theorem htons_shiftRight (v : UInt16) : ((htons v) >>> 8).toUInt8 = v.toUInt8 := by
  unfold htons
  apply UInt8.toBitVec_inj.1
  ext i hi
  simp
  grind

/-- The high byte stands first. -/
theorem bytesOf_htons (v : UInt16) : bytesOf (htons v) = [(v >>> 8).toUInt8, v.toUInt8] := by
  unfold bytesOf
  rw [htons_toUInt8, htons_shiftRight]

/-- The words of a file. -/
def wordsOf : List UInt8 → List UInt16
  | high :: low :: rest => (high.toUInt16 <<< 8 ||| low.toUInt16) :: wordsOf rest
  | _ => []

theorem word_bytes (v : UInt16) :
    (v >>> 8).toUInt8.toUInt16 <<< 8 ||| v.toUInt8.toUInt16 = v := by
  have hlt := v.toNat_lt
  have hhigh : (v >>> 8).toNat = v.toNat / 256 := by
    rw [UInt16.toNat_shiftRight, Nat.shiftRight_eq_div_pow]
    rfl
  have hshift : ((v >>> 8).toUInt8.toUInt16 <<< 8).toNat = v.toNat / 256 * 2 ^ 8 := by
    rw [UInt16.toNat_shiftLeft, UInt8.toNat_toUInt16, UInt16.toNat_toUInt8, hhigh]
    show (v.toNat / 256 % 2 ^ 8) <<< 8 % 2 ^ 16 = _
    rw [Nat.shiftLeft_eq]
    omega
  rw [← UInt16.toNat_inj, UInt16.toNat_or, hshift, UInt8.toNat_toUInt16, UInt16.toNat_toUInt8,
    Nat.or_comm, LittleEndian.or_shift (Nat.mod_lt _ (by decide))]
  omega

/-- A file of words is read as these words, and it is two bytes a word. -/
theorem wordsOf_flatMap (ws : List UInt16) :
    wordsOf (ws.flatMap fun w => bytesOf (htons w)) = ws ∧
      (ws.flatMap fun w => bytesOf (htons w)).length = 2 * ws.length := by
  induction ws with
  | nil => exact ⟨rfl, rfl⟩
  | cons w ws ih =>
    rw [List.flatMap_cons, bytesOf_htons]
    refine ⟨?_, ?_⟩
    · show _ :: wordsOf (ws.flatMap fun w => bytesOf (htons w)) = _
      rw [word_bytes, ih.1]
    · rw [List.length_append, ih.2, List.length_cons, List.length_cons, List.length_cons,
        List.length_nil]
      omega

theorem flatMap_wordsOf {bytes : List UInt8} (h : bytes.length = 2 * (wordsOf bytes).length) :
    bytes = (wordsOf bytes).flatMap fun w => bytesOf (htons w) := by
  induction bytes using wordsOf.induct with
  | case1 high low rest ih =>
    have hrest : rest.length = 2 * (wordsOf rest).length := by
      simp only [wordsOf, List.length_cons] at h
      omega
    have hhigh : ((high.toUInt16 <<< 8 ||| low.toUInt16) >>> 8).toUInt8 = high := by
      apply UInt8.toBitVec_inj.1
      ext i hi
      simp
      grind
    have hlow : (high.toUInt16 <<< 8 ||| low.toUInt16).toUInt8 = low := by
      apply UInt8.toBitVec_inj.1
      ext i hi
      simp
    show _ = (_ :: wordsOf rest).flatMap _
    rw [List.flatMap_cons, bytesOf_htons, hhigh, hlow, ← ih hrest]
    rfl
  | case2 bytes hshort =>
    rw [wordsOf.eq_2 _ hshort] at h ⊢
    exact List.length_eq_zero_iff.1 h

/-! ## Tokens without their lines -/

/-- The text of a token. -/
def Token.lineless (t : Token) : Token := { value := t.value, lineNumber := 0 }

@[simp] theorem Token.value_lineless (t : Token) : t.lineless.value = t.value := rfl

@[simp] theorem Token.type_lineless (t : Token) : t.lineless.type = t.type := rfl

theorem keepsKinds_lineless : KeepsKinds Token.lineless where
  type := Token.type_lineless
  value t _ := t.value_lineless

/-! ## `BuildSymtab` and `Encode` do not look at them -/

/-- The two passes behind the row loop. -/
theorem buildSymtab_bind_encode (rows : List InstructionRow) :
    (∀ row ∈ rows, Tabulable row) ∧ (buildSymtab rows).bind encode = encodeRows .empty rows ∨
      (¬ ∀ row ∈ rows, Tabulable row) ∧ (buildSymtab rows).bind encode = .error nullUsed := by
  obtain ⟨hok, hback⟩ := buildSymtabFrom_spec 0 [] rows
  cases hrun : buildSymtab rows with
  | ok inset => exact .inl ⟨(hback inset hrun).1, encode_buildSymtab hrun⟩
  | error e =>
    rw [buildSymtabFrom_error hrun]
    refine .inr ⟨fun htab => ?_, rfl⟩
    obtain ⟨inset, hinset⟩ := hok htab
    unfold buildSymtab at hrun
    rw [hrun] at hinset
    cases hinset

theorem Reader.read_lineless (r : Reader) (t : Token) : r.read t.lineless = r.read t := by
  cases r <;> rfl

theorem encodeReads_lineless (reads : List Read) :
    encodeReads (reads.map (mapRead Token.lineless)) = encodeReads reads := by
  induction reads with
  | nil => rfl
  | cons p reads ih =>
    obtain ⟨o, r⟩ := p
    cases o with
    | none => rfl
    | some t =>
      simp only [List.map_cons, mapRead, Option.map_some, encodeReads, deref_some, ok_bind,
        r.read_lineless, ih]

theorem encodeRow_lineless (row : InstructionRow) :
    encodeRow (row.map Token.lineless) = encodeRow row := by
  rw [encodeRow_reads, encodeRow_reads, format_map fun op _ => op.value_lineless]
  cases row.format with
  | none => rfl
  | some f =>
    show (f.encode (row.map Token.lineless).operands).map some = (f.encode row.operands).map some
    unfold Format.encode
    rw [reads_map, encodeReads_lineless]

theorem encodeRows_lineless (rows : List InstructionRow) (img : Image) :
    encodeRows img (rows.map (InstructionRow.map Token.lineless)) = encodeRows img rows := by
  induction rows generalizing img with
  | nil => rfl
  | cons row rows ih => simp only [List.map_cons, encodeRows, encodeRow_lineless, ih]

theorem buildSymtab_bind_encode_lineless (rows : List InstructionRow) :
    (buildSymtab (rows.map (InstructionRow.map Token.lineless))).bind encode =
      (buildSymtab rows).bind encode := by
  have htab : (∀ row ∈ rows.map (InstructionRow.map Token.lineless), Tabulable row) ↔
      ∀ row ∈ rows, Tabulable row := by
    rw [List.forall_mem_map]
    exact forall₂_congr fun row _ => tabulable_map fun op _ => op.value_lineless
  rcases buildSymtab_bind_encode rows with ⟨h, heq⟩ | ⟨h, heq⟩ <;>
    rcases buildSymtab_bind_encode (rows.map (InstructionRow.map Token.lineless)) with
      ⟨h', heq'⟩ | ⟨h', heq'⟩
  · rw [heq, heq', encodeRows_lineless]
  · exact absurd (htab.2 h) h'
  · exact absurd (htab.1 h') h
  · rw [heq, heq']

/-! ## The compiler -/

/-- `Parse` and `Encode` on the tokens end with this file or error. -/
def Compiles (tokens : List Token) (r : Except Stop (List UInt8)) : Prop :=
  ∃ inset, Parse tokens inset ∧ r = (inset.bind encode).map Image.file

theorem compiles_iff {tokens : List Token} {r : Except Stop (List UInt8)} :
    Compiles tokens r ↔ ∃ rows, ParseRows tokens rows ∧
      r = (rows.bind fun rows => (buildSymtab rows).bind encode).map Image.file := by
  constructor
  · rintro ⟨inset, ⟨rows, hrows, rfl⟩, rfl⟩
    exact ⟨rows, hrows, by cases rows <;> rfl⟩
  · rintro ⟨rows, hrows, rfl⟩
    exact ⟨rows.bind buildSymtab, ⟨rows, hrows, rfl⟩, by cases rows <;> rfl⟩

/-- The passes do not look at the lines. -/
theorem compiles_lineless {tokens : List Token} {r : Except Stop (List UInt8)} :
    Compiles (tokens.map Token.lineless) r ↔ Compiles tokens r := by
  have hlineless : ∀ rows : Except Stop (List InstructionRow),
      ((rows.map (List.map (InstructionRow.map Token.lineless))).bind
          fun rows => (buildSymtab rows).bind encode) =
        rows.bind fun rows => (buildSymtab rows).bind encode := by
    intro rows
    cases rows with
    | error e => rfl
    | ok rows => exact buildSymtab_bind_encode_lineless rows
  rw [compiles_iff, compiles_iff]
  constructor
  · rintro ⟨rows', hrows', rfl⟩
    obtain ⟨rows, hrows, rfl⟩ := (parseRows_map_iff keepsKinds_lineless).1 hrows'
    exact ⟨rows, hrows, by rw [hlineless]⟩
  · rintro ⟨rows, hrows, rfl⟩
    exact ⟨_, (parseRows_map_iff keepsKinds_lineless).2 ⟨rows, hrows, rfl⟩, by rw [hlineless]⟩

/-- Tokens of the same texts. -/
theorem map_lineless_eq {tokens tokens' : List Token}
    (h : tokens.map Token.value = tokens'.map Token.value) :
    tokens.map Token.lineless = tokens'.map Token.lineless := by
  have hlineless : Token.lineless =
      (fun v => ({ value := v, lineNumber := 0 } : Token)) ∘ Token.value := rfl
  rw [hlineless, ← List.map_map, ← List.map_map, h]

/-- **What is compiled is the sequence of the tokens' texts**: the layout, the comments and the
lines reach neither the file, nor the error, nor whether there is an end. -/
theorem compileFile_layout (text text' : List Char)
    (h : (tokenize text).map (List.map Token.value) = (tokenize text').map (List.map Token.value))
    (r : Except Stop (List UInt8)) : CompileFile text r ↔ CompileFile text' r := by
  unfold CompileFile
  cases htext : tokenize text with
  | error e =>
    cases htext' : tokenize text' with
    | error e' =>
      rw [htext, htext'] at h
      cases h
      rfl
    | ok tokens' =>
      rw [htext, htext'] at h
      cases h
  | ok tokens =>
    cases htext' : tokenize text' with
    | error e' =>
      rw [htext, htext'] at h
      cases h
    | ok tokens' =>
      rw [htext, htext'] at h
      have hlineless := map_lineless_eq (Except.ok.inj h)
      show Compiles tokens r ↔ Compiles tokens' r
      rw [← compiles_lineless, hlineless, compiles_lineless]

/-- An image holds these words in its file. -/
theorem Image.file_iff {img : Image} {bytes : List UInt8} :
    img.file = bytes ↔ bytes.length = 2 * img.words.length ∧ wordsOf bytes = img.words := by
  obtain ⟨hwords, hlength⟩ := wordsOf_flatMap img.words
  constructor
  · rintro rfl
    exact ⟨hlength, hwords⟩
  · rintro ⟨hlen, hw⟩
    rw [eq_comm, Image.file, ← hw]
    exact flatMap_wordsOf (by rw [hlen, hw])

/-- **What is written, and when**: the words of the rows, if every row has the tokens that the
passes use and there are no more words than an image holds. -/
theorem compileFile_ok_iff (text : List Char) (bytes : List UInt8) :
    CompileFile text (.ok bytes) ↔ ∃ tokens rows ws, tokenize text = .ok tokens ∧
      ParseRows tokens (.ok rows) ∧ (∀ row ∈ rows, Tabulable row) ∧ emitRows rows = .ok ws ∧
      ws.length ≤ kImageSize ∧ bytes.length = 2 * ws.length ∧ wordsOf bytes = ws := by
  unfold CompileFile
  cases htext : tokenize text with
  | error e =>
    refine ⟨fun h => ?_, fun h => ?_⟩
    · cases h
    · obtain ⟨tokens, rows, ws, h, -⟩ := h
      cases h
  | ok tokens =>
    show Compiles tokens (.ok bytes) ↔ _
    rw [compiles_iff]
    constructor
    · rintro ⟨rows, hrows, h⟩
      cases rows with
      | error e => cases h
      | ok rows =>
        change Except.ok bytes = ((buildSymtab rows).bind encode).map Image.file at h
        rcases buildSymtab_bind_encode rows with ⟨htab, heq⟩ | ⟨-, heq⟩
        · rw [heq] at h
          cases himg : encodeRows .empty rows with
          | error e =>
            rw [himg] at h
            cases h
          | ok img =>
            rw [himg] at h
            obtain ⟨ws, hws, hwords, hlen⟩ := encodeRows_words himg
            rw [Image.words_empty, List.nil_append] at hwords
            have hfile := Image.file_iff.1 (Except.ok.inj h).symm
            rw [hwords] at hfile
            have hfit : ws.length ≤ kImageSize := by
              rw [← hwords, Image.words, List.length_take, Vector.length_toList]
              exact Nat.min_le_right _ _
            exact ⟨tokens, rows, ws, rfl, hrows, htab, hws, hfit, hfile⟩
        · rw [heq] at h
          cases h
    · rintro ⟨tokens', rows, ws, htokens, hrows, htab, hws, hfit, hfile⟩
      cases htokens
      refine ⟨.ok rows, hrows, ?_⟩
      show Except.ok bytes = ((buildSymtab rows).bind encode).map Image.file
      rcases buildSymtab_bind_encode rows with ⟨-, heq⟩ | ⟨hnot, -⟩
      · obtain ⟨img, himg⟩ := @encodeRows_of_emit rows .empty ws hws
          ((Nat.zero_add _).trans_le hfit)
        obtain ⟨ws', hws', hwords, -⟩ := encodeRows_words himg
        rw [hws] at hws'
        cases hws'
        rw [Image.words_empty, List.nil_append] at hwords
        rw [heq, himg]
        rw [← hwords] at hfile
        exact congrArg Except.ok (Image.file_iff.2 hfile).symm
      · exact absurd htab hnot

/-- `hello-world.asm` on one line. -/
theorem compileFile_layout_hello :
    CompileFile (helloText "HW") (.ok [0x30, 0x00, 0xE0, 0x00, 0xF0, 0x22, 0xF0, 0x25]) ↔
      CompileFile ".ORIG x3000 LEA R0 HW PUTS HALT HW .STRINGZ \"hello world!\" .END".toList
        (.ok [0x30, 0x00, 0xE0, 0x00, 0xF0, 0x22, 0xF0, 0x25]) :=
  compileFile_layout _ _ (by decide +kernel) _

end Tvm
