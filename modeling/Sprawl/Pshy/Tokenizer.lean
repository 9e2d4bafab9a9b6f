import Sprawl.Lib.Loop
import Sprawl.Pshy.Dynbuf

/-!
# The words of a line (`pshy/tokenizer.c`)

`pshy_tokens_from_buff` copies the string of the buffer, calls `strtok_r` on the copy until
it gives a null pointer, and puts a copy of every token into an array that grows by one
cell at a time; a null pointer is put behind them, and counted.

For a buffer to which the characters `cs` were added, none of them NUL, the array is the
fields of `cs` between spaces and one null pointer (`tokensFromBuff_spec`).
-/

namespace Pshy

open Cxx Cstring Fields Loop

/-- A `char*` to a string of its own, or null. -/
abbrev Str := Option (List Char)

/-- `struct pshy_tokens` -/
structure Tokens where
  len : UInt64
  tokens : Block Str
deriving DecidableEq

/-- `pshy_tokens_create()` -/
def tokensCreate : Tokens := { len := 0, tokens := [] }

/-- `add_item(toks, word)` -/
def addItem (alloc : Allocator) (toks : Tokens) (word : Str) : Except Stop Tokens :=
  let len := toks.len + 1
  match alloc.realloc 8 toks.tokens (8 * len).toNat with
  | none => .error .abort
  | some tmp => do
    let tokens ← store tmp (len - 1).toNat word
    return { len, tokens }

/-- The variables of `pshy_tokens_from_buff`; `data` is the block of its copy. -/
structure State where
  data : Block Char
  dataForTok : Option Nat
  save : Option Nat
  toks : Tokens
deriving DecidableEq

/-- One turn of `while ((token = strtok_r(data_for_tok, " ", &save)) != NULL)`. -/
def tokensBody (alloc : Allocator) (s : State) : Turn State (Except Stop Tokens) :=
  match strtokR s.data s.dataForTok [' '] s.save with
  | .error e => .done (.error e)
  | .ok (_, none, _) => .done (addItem alloc s.toks none)
  | .ok (data, some token, save) =>
    match strdup data token >>= fun word => addItem alloc s.toks (some word) with
    | .error e => .done (.error e)
    | .ok toks => .again { data, dataForTok := none, save, toks }

/-- `pshy_tokens_from_buff(buff)` ends with `r`. -/
def TokensFromBuff (alloc : Allocator) (buff : Buff) (r : Except Stop Tokens) : Prop :=
  match strdup buff.data 0 with
  | .error e => r = .error e
  | .ok copy => Returns (tokensBody alloc)
      { data := (copy ++ [nul]).map some, dataForTok := some 0, save := none,
        toks := tokensCreate } r

/-! ## The array -/

/-- The array holds these pointers. -/
def Lists (toks : Tokens) (ws : List Str) : Prop :=
  toks.len.toNat = ws.length ∧ toks.tokens = ws.map some

theorem tokensCreate_lists : Lists tokensCreate [] := ⟨rfl, rfl⟩

/-- One more pointer, or no room for it. -/
theorem addItem_lists (alloc : Allocator) {toks : Tokens} {ws : List Str} (h : Lists toks ws)
    (hlen : ws.length < 2 ^ 60) (word : Str) :
    (alloc.gives (8 * (ws.length + 1)) = false ∧ addItem alloc toks word = .error .abort) ∨
    (ws.length + 1 < 2 ^ 60 ∧
      ∃ toks', addItem alloc toks word = .ok toks' ∧ Lists toks' (ws ++ [word])) := by
  obtain ⟨hcount, htokens⟩ := h
  have hnext : (toks.len + 1).toNat = ws.length + 1 := by
    rw [UInt64.toNat_add, hcount]
    show (ws.length + 1) % 2 ^ 64 = _
    omega
  have hlast : (toks.len + 1 - 1).toNat = ws.length := by
    rw [UInt64.add_sub_cancel, hcount]
  have hbytes : (8 * (toks.len + 1)).toNat = 8 * (ws.length + 1) := by
    rw [UInt64.toNat_mul, hnext]
    show 8 * (ws.length + 1) % 2 ^ 64 = _
    omega
  unfold addItem Allocator.realloc
  simp only [hbytes, hlast, Nat.mul_div_cancel_left (ws.length + 1) (show 0 < 8 by decide)]
  cases hgives : alloc.gives (8 * (ws.length + 1)) with
  | false => exact .inl ⟨rfl, rfl⟩
  | true =>
    have hlt := alloc.below _ hgives
    have hblock : toks.tokens.take (ws.length + 1) ++
        List.replicate (ws.length + 1 - toks.tokens.length) none = ws.map some ++ [none] := by
      have hone : ws.length + 1 - toks.tokens.length = 1 := by
        rw [htokens, List.length_map]
        omega
      rw [hone, htokens, List.take_of_length_le (by rw [List.length_map]; omega)]
      rfl
    simp only [if_true, hblock, store_append word (show ws.length = (ws.map some).length by simp)]
    refine .inr ⟨by omega, _, rfl, ?_, ?_⟩
    · rw [List.length_append]
      exact hnext
    · rw [List.map_append]
      rfl

/-! ## The loop -/

/-- The maximal runs of characters other than space. -/
def wordsOf (cs : List Char) : List (List Char) := fields (fun c => c = ' ') cs

theorem wordsOf_eq (cs : List Char) : wordsOf cs = fields (fun c => [' '].contains c) cs := by
  unfold wordsOf
  congr 1
  funext c
  simp

/-- From every state on the way: the words that are left, and a null pointer. -/
theorem tokens_from (alloc : Allocator) {s : State} {i : Nat} {text : List Char} {post : Block Char}
    {ws : List Str} (hs : s.dataForTok.or s.save = some i)
    (hblock : s.data.drop i = text.map some ++ some nul :: post) (htext : nul ∉ text)
    (hlists : Lists s.toks ws) (hlen : ws.length < 2 ^ 60) :
    (∃ toks, Returns (tokensBody alloc) s (.ok toks) ∧
      Lists toks (ws ++ (wordsOf text).map some ++ [none])) ∨
    (Returns (tokensBody alloc) s (.error .abort) ∧
      ∃ n ≤ ws.length + (wordsOf text).length, alloc.gives (8 * (n + 1)) = false) := by
  induction hn : text.length using Nat.strongRecOn generalizing s i text ws with
  | ind k ih =>
    rcases strtokR_spec hs hblock htext (show nul ∉ [' '] by decide) with
      ⟨hfields, next, htok⟩ | ⟨w, rest, data, token, next, hfields, hlt, hrest, htok, hw, hdata⟩
    · -- no token is left: the null pointer
      rw [← wordsOf_eq] at hfields
      have hbody : tokensBody alloc s = .done (addItem alloc s.toks none) := by
        unfold tokensBody
        rw [htok]
      rw [hfields, List.map_nil, List.append_nil]
      rcases addItem_lists alloc hlists hlen none with ⟨hgives, habort⟩ | ⟨-, toks, hadd, hall⟩
      · rw [habort] at hbody
        exact .inr ⟨returns_of_done hbody, _, Nat.le_refl _, hgives⟩
      · rw [hadd] at hbody
        exact .inl ⟨toks, returns_of_done hbody, hall⟩
    · rw [← wordsOf_eq, ← wordsOf_eq] at hfields
      have hdup : strdup data token = .ok w := hw
      rcases addItem_lists alloc hlists hlen (some w) with
        ⟨hgives, habort⟩ | ⟨hlen', toks, hadd, hall⟩
      · have hbody : tokensBody alloc s = .done (.error .abort) := by
          unfold tokensBody
          simp only [htok, hdup, ok_bind, habort]
        exact .inr ⟨returns_of_done hbody, ws.length, Nat.le_add_right _ _, hgives⟩
      · have hbody : tokensBody alloc s =
            .again { data, dataForTok := none, save := some next, toks } := by
          unfold tokensBody
          simp only [htok, hdup, ok_bind, hadd]
        have hgoal :
            ws ++ (wordsOf text).map some = (ws ++ [some w]) ++ (wordsOf rest).map some := by
          rw [hfields, List.map_cons, List.append_assoc]
          rfl
        have hcount : ws.length + (wordsOf text).length =
            (ws ++ [some w]).length + (wordsOf rest).length := by
          rw [hfields, List.length_append, List.length_cons, List.length_singleton]
          omega
        rw [hgoal, hcount]
        rcases ih rest.length (by omega)
          (s := { data, dataForTok := none, save := some next, toks }) rfl hdata hrest hall
          (by rw [List.length_append]; exact hlen') rfl with ⟨r, hret, hr⟩ | ⟨hret, hrefused⟩
        · exact .inl ⟨r, (returns_again_iff hbody).2 hret, hr⟩
        · exact .inr ⟨(returns_again_iff hbody).2 hret, hrefused⟩

theorem added_adds (cs : List Char) : added (cs.map .add) = cs := by
  induction cs using List.reverseRecOn with
  | nil => rfl
  | append_singleton cs c ih => rw [List.map_append, List.map_singleton, added_concat, ih]

/-- The string of a buffer. -/
theorem Holds.chars_data {buff : Buff} {cs : List Char} (h : Holds buff cs) (hnul : nul ∉ cs) :
    strdup buff.data 0 = .ok cs := by
  obtain ⟨-, hlt, hdata⟩ := holds_iff.1 h
  unfold strdup
  rw [List.drop_zero, hdata,
    show buff.cap.toNat - cs.length = buff.cap.toNat - cs.length - 1 + 1 by omega,
    List.replicate_succ]
  exact chars_eq hnul _

/-- What the tokens of a buffer are. -/
theorem Holds.tokensFromBuff (alloc : Allocator) {buff : Buff} {cs : List Char}
    (h : Holds buff cs) (hnul : nul ∉ cs) :
    (∃ toks, TokensFromBuff alloc buff (.ok toks) ∧ Lists toks ((wordsOf cs).map some ++ [none])) ∨
    (TokensFromBuff alloc buff (.error .abort) ∧
      ∃ n ≤ (wordsOf cs).length, alloc.gives (8 * (n + 1)) = false) := by
  have hblock : ((cs ++ [nul]).map some).drop 0 = cs.map some ++ some nul :: [] := by
    rw [List.map_append]
    rfl
  unfold TokensFromBuff
  rw [h.chars_data hnul]
  have hfrom := @tokens_from alloc
    { data := (cs ++ [nul]).map some, dataForTok := some 0, save := none, toks := tokensCreate }
    0 cs [] [] rfl hblock hnul tokensCreate_lists (by decide)
  rwa [List.nil_append, List.length_nil, Nat.zero_add] at hfrom

/-- **The tokens of a buffer are the words that were added to it, and a null pointer**,
unless the allocator has no room for the array. -/
theorem tokensFromBuff_spec (alloc : Allocator) {cs : List Char} (hnul : nul ∉ cs) {buff : Buff}
    (hbuff : run alloc (cs.map .add) = .ok buff) :
    (∃ toks, TokensFromBuff alloc buff (.ok toks) ∧
      toks.len.toNat = (wordsOf cs).length + 1 ∧
      toks.tokens = ((wordsOf cs).map some ++ [none]).map some) ∨
    (TokensFromBuff alloc buff (.error .abort) ∧
      ∃ n ≤ (wordsOf cs).length, alloc.gives (8 * (n + 1)) = false) := by
  rcases run_invariant alloc (cs.map .add) with ⟨b, hrun, hholds, -⟩ | ⟨habort, -⟩
  · rw [hbuff] at hrun
    obtain rfl := Except.ok.inj hrun
    rw [added_adds] at hholds
    rcases hholds.tokensFromBuff alloc hnul with ⟨toks, hret, hlen, htokens⟩ | hrefused
    · refine .inl ⟨toks, hret, ?_, htokens⟩
      rw [hlen, List.length_append, List.length_map, List.length_singleton]
    · exact .inr hrefused
  · rw [hbuff] at habort
    cases habort

/-- An allocator that has every block C allows. -/
def roomy : Allocator := { gives := fun n => n < 2 ^ 63, below := fun _ h => of_decide_eq_true h }

theorem tokensFromBuff_spec_ls :
    (∃ toks, TokensFromBuff roomy
        ⟨7, 64, (" ls  -l".toList ++ List.replicate 57 nul).map some⟩ (.ok toks) ∧
      toks.len.toNat = (wordsOf " ls  -l".toList).length + 1 ∧
      toks.tokens = ((wordsOf " ls  -l".toList).map some ++ [none]).map some) ∨
    (TokensFromBuff roomy
        ⟨7, 64, (" ls  -l".toList ++ List.replicate 57 nul).map some⟩ (.error .abort) ∧
      ∃ n ≤ (wordsOf " ls  -l".toList).length, roomy.gives (8 * (n + 1)) = false) :=
  tokensFromBuff_spec roomy (by decide) (by decide +kernel)

end Pshy
