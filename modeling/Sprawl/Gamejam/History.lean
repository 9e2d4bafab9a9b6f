import Sprawl.Gamejam.Numbers
import Sprawl.Gamejam.Tiles

/-!
# One builder for many texts (`FromText` over a history of calls)

No call sets the fields back and no constructor sets them at all: what a text does not
give, `FromText` takes from the texts before it.  The result is a function of the text
exactly if the text gives width, height and tileset, or is refused for its tiles with
room enough (`textOnly_iff`).  The tiles are moved out or cleared by `FromText`; only a
`ParseTiles` called on its own leaves some behind.
-/

namespace Gamejam

open Cxx

/-- A call on a builder. -/
inductive Call
  | fromText (is : List Char)
  | parseMetadata (is : List Char)
  | parseTiles (is : List Char)

section
variable (reserve : UInt64 → Except Stop Unit)

/-- The builder that a call leaves.  What throws is `reserve`, before any tile is stored. -/
def Call.leaves (b : LevelBuilder) : Call → LevelBuilder
  | .fromText is =>
    match Gamejam.fromText reserve b is with
    | .ok (_, b) => b
    | .error _ => (Gamejam.parseMetadata b is).2.1
  | .parseMetadata is => (Gamejam.parseMetadata b is).2.1
  | .parseTiles is =>
    match Gamejam.parseTiles reserve b is with
    | .ok (_, b) => b
    | .error _ => b

/-- The builders after calls of a kind.  The constructor leaves the numbers as they are. -/
inductive Reached (allowed : Call → Prop) : LevelBuilder → Prop
  | fresh (width height tilesetWidth tilesetHeight : UInt64) :
      Reached allowed
        { width, height, pathToTileset := [], tilesetWidth, tilesetHeight, tiles := [] }
  | call {b : LevelBuilder} {c : Call} :
      Reached allowed b → allowed c → Reached allowed (c.leaves reserve b)

/-- What `FromText` returns. -/
def levelFrom (b : LevelBuilder) (text : List Char) : Except Stop (Option Level) :=
  (fromText reserve b text).map Prod.fst

end

def Call.IsFromText : Call → Prop
  | .fromText _ => True
  | _ => False

def GivesWidth (es : List Entry) : Prop := ∃ e ∈ es, ∃ width, e.line = .x width

def GivesHeight (es : List Entry) : Prop := ∃ e ∈ es, ∃ height, e.line = .y height

def GivesTileset (es : List Entry) : Prop :=
  ∃ e ∈ es, ∃ tilesetWidth tilesetHeight path, e.line = .t tilesetWidth tilesetHeight path

/-- `FromText` returns the same on any two builders, and nothing for a text that does not give
both a width and a height. -/
def TextOnly (reserve : UInt64 → Except Stop Unit) (allowed : Call → Prop) (text : List Char) :
    Prop :=
  (∀ b b', Reached reserve allowed b → Reached reserve allowed b' →
    levelFrom reserve b text = levelFrom reserve b' text) ∧
  ((∀ es rest, Entries text es rest → ¬ (GivesWidth es ∧ GivesHeight es)) →
    ∀ b, Reached reserve allowed b → levelFrom reserve b text = .ok none)

/-- The tiles `ParseTiles` makes room for behind the lines. -/
def room (b : LevelBuilder) (es : List Entry) : UInt64 :=
  reservedSize (stored b es).tilesetHeight (stored b es).tilesetWidth

/-- Where the text has a place for tiles, its lines give all there is, or its tiles are refused
and no builder lacks the room for them. -/
def Settled (reserve : UInt64 → Except Stop Unit) (text : List Char) : Prop :=
  ∀ es rest v, Entries text es rest → behindPair (rest.takeWhile goesOn) = some v →
    (GivesWidth es ∧ GivesHeight es ∧ GivesTileset es) ∨
    (v.all isTileChar = false ∧ ∀ b, reserve (room b es) = .ok ())

/-- No level comes out: the tiles are refused, or there is no room. -/
def Levelless (reserve : UInt64 → Except Stop Unit) (text : List Char) : Prop :=
  ∀ es rest v, Entries text es rest → behindPair (rest.takeWhile goesOn) = some v →
    v.all isTileChar = false ∨ ∀ b, reserve (room b es) ≠ .ok ()

/-! ## What lines set and keep -/

section
variable {α : Type} {get : LevelBuilder → α} {Sets : MetaLine → Prop} {es : List Entry}
  {b b' : LevelBuilder}

/-- What some line sets is the same on any two builders. -/
theorem stored_agree (hsets : ∀ l, Sets l → ∀ b b', get (l.apply b) = get (l.apply b'))
    (hkeeps : ∀ l, ¬ Sets l → ∀ b, get (l.apply b) = get b)
    (h : get b = get b' ∨ ∃ e ∈ es, Sets e.line) : get (stored b es) = get (stored b' es) := by
  induction es generalizing b b' with
  | nil => exact h.resolve_right (by rintro ⟨e, he, -⟩; exact absurd he List.not_mem_nil)
  | cons e es ih =>
    rw [stored_cons, stored_cons]
    apply ih
    by_cases he : Sets e.line
    · exact .inl (hsets e.line he b b')
    · rcases h with h | ⟨e', hmem, hset⟩
      · rw [hkeeps e.line he, hkeeps e.line he]
        exact .inl h
      · rcases List.mem_cons.1 hmem with rfl | hmem
        · exact absurd hset he
        · exact .inr ⟨e', hmem, hset⟩

/-- What no line sets is kept. -/
theorem stored_keeps (hkeeps : ∀ l, ¬ Sets l → ∀ b, get (l.apply b) = get b)
    (h : ¬ ∃ e ∈ es, Sets e.line) : get (stored b es) = get b := by
  induction es generalizing b with
  | nil => rfl
  | cons e es ih =>
    have he : ¬ Sets e.line := by
      intro hset
      exact h ⟨e, List.mem_cons_self, hset⟩
    have hes : ¬ ∃ e ∈ es, Sets e.line := by
      rintro ⟨e', hmem, hset⟩
      exact h ⟨e', List.mem_cons_of_mem e hmem, hset⟩
    rw [stored_cons, ih hes, hkeeps e.line he]

end

section
variable {es : List Entry}

theorem stored_width (h : GivesWidth es) (b b' : LevelBuilder) :
    (stored b es).width = (stored b' es).width := by
  refine @stored_agree _ LevelBuilder.width (fun l => ∃ width, l = .x width) es b b' ?_ ?_ (.inr h)
  · rintro _ ⟨width, rfl⟩ b b'
    rfl
  · rintro (width | _ | _) hl b
    · exact absurd ⟨width, rfl⟩ hl
    · rfl
    · rfl

theorem stored_height (h : GivesHeight es) (b b' : LevelBuilder) :
    (stored b es).height = (stored b' es).height := by
  refine @stored_agree _ LevelBuilder.height (fun l => ∃ height, l = .y height) es b b' ?_ ?_
    (.inr h)
  · rintro _ ⟨height, rfl⟩ b b'
    rfl
  · rintro (_ | height | _) hl b
    · rfl
    · exact absurd ⟨height, rfl⟩ hl
    · rfl

/-- The three fields that a line `t` sets. -/
def LevelBuilder.tileset (b : LevelBuilder) : UInt64 × UInt64 × List Char :=
  (b.tilesetWidth, b.tilesetHeight, b.pathToTileset)

theorem tileset_keeps {l : MetaLine} (hl : ¬ ∃ w h path, l = .t w h path) (b : LevelBuilder) :
    (l.apply b).tileset = b.tileset := by
  cases l with
  | x width => rfl
  | y height => rfl
  | t w h path => exact absurd ⟨w, h, path, rfl⟩ hl

theorem stored_tileset {α : Type} (get : UInt64 × UInt64 × List Char → α) {b b' : LevelBuilder}
    (h : get b.tileset = get b'.tileset ∨ GivesTileset es) :
    get (stored b es).tileset = get (stored b' es).tileset := by
  refine @stored_agree _ (fun b => get b.tileset) (fun l => ∃ w h path, l = .t w h path) es b b' ?_
    (fun _ hl b => congrArg get (tileset_keeps hl b)) h
  rintro _ ⟨w, h, path, rfl⟩ b b'
  rfl

theorem stored_tileset_keeps (h : ¬ GivesTileset es) (b : LevelBuilder) :
    (stored b es).tileset = b.tileset :=
  @stored_keeps _ LevelBuilder.tileset (fun l => ∃ w h path, l = .t w h path) es b
    (fun _ hl b => tileset_keeps hl b) h

theorem stored_tiles (es : List Entry) (b : LevelBuilder) : (stored b es).tiles = b.tiles := by
  refine @stored_keeps _ LevelBuilder.tiles (fun _ => False) es b ?_ ?_
  · rintro (_ | _ | _) - b
    all_goals rfl
  · rintro ⟨e, -, he⟩
    exact he

/-- The tileset decides the room. -/
theorem room_eq {b b' : LevelBuilder}
    (h : reservedSize b.tilesetHeight b.tilesetWidth =
      reservedSize b'.tilesetHeight b'.tilesetWidth ∨ GivesTileset es) : room b es = room b' es :=
  stored_tileset (fun t => reservedSize t.2.1 t.1) h

theorem room_keeps (h : ¬ GivesTileset es) (b : LevelBuilder) :
    room b es = reservedSize b.tilesetHeight b.tilesetWidth :=
  congrArg (fun t : UInt64 × UInt64 × List Char => reservedSize t.2.1 t.1)
    (stored_tileset_keeps h b)

end

/-! ## What `FromText` returns -/

variable {reserve : UInt64 → Except Stop Unit} {allowed : Call → Prop} {text rest v : List Char}
  {es : List Entry}

theorem fromText_refused (h : ¬ ∃ es rest, Entries text es rest) (b : LevelBuilder) :
    fromText reserve b text = .ok (none, (parseMetadata b text).2.1) := by
  unfold fromText
  split
  · next c rest hparse =>
    obtain ⟨es, hes, -⟩ := parseMetadata_entries.1 hparse
    exact absurd ⟨es, rest, hes⟩ h
  · next hparse => rw [hparse]

section
variable (hes : Entries text es rest) (b : LevelBuilder)
include hes

theorem parseMetadata_stored : parseMetadata b text = (.success, stored b es, rest) :=
  parseMetadata_entries.2 ⟨es, hes, rfl⟩

theorem fromText_unfound (hpair : behindPair (rest.takeWhile goesOn) = none) :
    fromText reserve b text = .ok (none, stored b es) := by
  unfold fromText
  simp only [parseMetadata_stored hes b, parseTiles_none hpair]

theorem fromText_throws (hpair : behindPair (rest.takeWhile goesOn) = some v) {e : Stop}
    (hreserve : reserve (room b es) = .error e) : fromText reserve b text = .error e := by
  unfold fromText
  simp only [parseMetadata_stored hes b, parseTiles_throws hpair hreserve]

theorem fromText_pair (hpair : behindPair (rest.takeWhile goesOn) = some v)
    (hreserve : reserve (room b es) = .ok ()) :
    fromText reserve b text =
      .ok (if v.all isTileChar then
          (some { stored b es with tiles := b.tiles ++ tilesOf v }.toLevel,
            { stored b es with tiles := [] })
        else (none, { stored b es with tiles := [] })) := by
  unfold fromText
  simp only [parseMetadata_stored hes b, parseTiles_some hpair hreserve]
  by_cases hall : v.all isTileChar = true
  · rw [if_pos hall, if_pos hall, stored_tiles]
  · rw [if_neg hall, if_neg hall]

theorem levelFrom_throws (hpair : behindPair (rest.takeWhile goesOn) = some v) {e : Stop}
    (hreserve : reserve (room b es) = .error e) : levelFrom reserve b text = .error e := by
  rw [levelFrom, fromText_throws hes b hpair hreserve]
  rfl

theorem levelFrom_pair (hpair : behindPair (rest.takeWhile goesOn) = some v)
    (hreserve : reserve (room b es) = .ok ()) :
    levelFrom reserve b text =
      .ok (if v.all isTileChar then
          some { stored b es with tiles := b.tiles ++ tilesOf v }.toLevel
        else none) := by
  rw [levelFrom, fromText_pair hes b hpair hreserve]
  by_cases hall : v.all isTileChar = true
  · rw [if_pos hall, if_pos hall]
    rfl
  · rw [if_neg hall, if_neg hall]
    rfl

end

/-- A text that gives not all there is gives nothing to any builder. -/
theorem settled_cases (h : Settled reserve text) :
    (∃ es rest v, Entries text es rest ∧ behindPair (rest.takeWhile goesOn) = some v ∧
      GivesWidth es ∧ GivesHeight es ∧ GivesTileset es) ∨
    ∀ b, levelFrom reserve b text = .ok none := by
  by_cases hentries : ∃ es rest, Entries text es rest
  · obtain ⟨es, rest, hes⟩ := hentries
    cases hpair : behindPair (rest.takeWhile goesOn) with
    | none =>
      refine .inr ?_
      intro b
      rw [levelFrom, fromText_unfound hes b hpair]
      rfl
    | some v =>
      rcases h es rest v hes hpair with hgives | ⟨hno, hreserve⟩
      · exact .inl ⟨es, rest, v, hes, hpair, hgives⟩
      · refine .inr ?_
        intro b
        rw [levelFrom_pair hes b hpair (hreserve b), if_neg (Bool.eq_false_iff.1 hno)]
  · refine .inr ?_
    intro b
    rw [levelFrom, fromText_refused hentries]
    rfl

/-- Where a settled text gives all there is, the builders must not show through. -/
theorem textOnly_of_settled (h : Settled reserve text)
    (hsame : ∀ es rest v, Entries text es rest → behindPair (rest.takeWhile goesOn) = some v →
      GivesWidth es → GivesHeight es → GivesTileset es → ∀ b b', Reached reserve allowed b →
      Reached reserve allowed b' → levelFrom reserve b text = levelFrom reserve b' text) :
    TextOnly reserve allowed text := by
  rcases settled_cases h with ⟨es, rest, v, hes, hpair, hwidth, hheight, htileset⟩ | hnone
  · constructor
    · intro b b' hb hb'
      exact hsame es rest v hes hpair hwidth hheight htileset b b' hb hb'
    · intro hno
      exact absurd ⟨hwidth, hheight⟩ (hno es rest hes)
  · constructor
    · intro b b' _ _
      rw [hnone, hnone]
    · intro _ b _
      exact hnone b

/-! ## Builders that only parsed whole texts -/

theorem parseMetadata_tiles (b : LevelBuilder) (is : List Char) :
    (parseMetadata b is).2.1.tiles = b.tiles := by
  fun_induction parseMetadata b is
  case case3 ih => exact ih
  case case5 ih => exact ih
  case case9 ih => exact ih
  all_goals rfl

/-- `FromText` moves the tiles out or clears them. -/
theorem fromText_tiles {b b' : LevelBuilder} {level : Option Level} (hb : b.tiles = [])
    (h : fromText reserve b text = .ok (level, b')) : b'.tiles = [] := by
  by_cases hentries : ∃ es rest, Entries text es rest
  · obtain ⟨es, rest, hes⟩ := hentries
    cases hpair : behindPair (rest.takeWhile goesOn) with
    | none =>
      rw [fromText_unfound hes b hpair] at h
      cases h
      exact (stored_tiles es b).trans hb
    | some v =>
      cases hreserve : reserve (room b es) with
      | error e =>
        rw [fromText_throws hes b hpair hreserve] at h
        cases h
      | ok _ =>
        rw [fromText_pair hes b hpair hreserve] at h
        split at h
        · cases h
          rfl
        · cases h
          rfl
  · rw [fromText_refused hentries] at h
    cases h
    exact (parseMetadata_tiles b text).trans hb

theorem leaves_tiles {b : LevelBuilder} (hb : b.tiles = []) (is : List Char) :
    ((Call.fromText is).leaves reserve b).tiles = [] := by
  cases h : fromText reserve b is with
  | error e =>
    simp only [Call.leaves, h]
    exact (parseMetadata_tiles b is).trans hb
  | ok out =>
    simp only [Call.leaves, h]
    exact fromText_tiles hb h

theorem reached_tiles {b : LevelBuilder} (h : Reached reserve Call.IsFromText b) :
    b.tiles = [] := by
  induction h with
  | fresh => rfl
  | @call b c _ hc ih =>
    cases c with
    | fromText is => exact leaves_tiles ih is
    | parseMetadata is => exact hc.elim
    | parseTiles is => exact hc.elim

theorem same_level {b b' : LevelBuilder} (hes : Entries text es rest)
    (hpair : behindPair (rest.takeWhile goesOn) = some v) (hwidth : GivesWidth es)
    (hheight : GivesHeight es) (htileset : GivesTileset es) (htiles : b.tiles = b'.tiles) :
    levelFrom reserve b text = levelFrom reserve b' text := by
  have hroom : room b es = room b' es := room_eq (.inr htileset)
  have hpath : (stored b es).pathToTileset = (stored b' es).pathToTileset :=
    stored_tileset (fun t => t.2.2) (.inr htileset)
  cases hreserve : reserve (room b es) with
  | error e =>
    rw [levelFrom_throws hes b hpair hreserve, levelFrom_throws hes b' hpair (hroom ▸ hreserve)]
  | ok _ =>
    rw [levelFrom_pair hes b hpair hreserve, levelFrom_pair hes b' hpair (hroom ▸ hreserve),
      LevelBuilder.toLevel, LevelBuilder.toLevel, htiles, hpath, stored_width hwidth b b',
      stored_height hheight b b']

/-! ## Builders that show through -/

/-- A builder with room for `n` tiles. -/
def roomyBuilder (n : UInt64) (pathToTileset : List Char) (tiles : List Tile) : LevelBuilder :=
  { width := 0, height := 0, pathToTileset, tilesetWidth := 1, tilesetHeight := n, tiles }

theorem reservedSize_one {n : UInt64} (hn : n ≠ 0) : reservedSize n 1 = n := by
  rw [reservedSize, UInt64.mul_one, if_pos hn]

/-- A text with nothing but a tileset leaves a path behind. -/
theorem reached_path (hallowed : ∀ is, allowed (.fromText is)) (n : UInt64) :
    Reached reserve allowed (roomyBuilder n ['p'] []) := by
  have hgood : ∀ l ∈ [MetaLine.t 1 n ['p']], l.Good := by
    refine List.forall_mem_singleton.2 ⟨by decide, ?_⟩
    exact List.forall_mem_singleton.2 (by decide)
  obtain ⟨es, hes, hstored⟩ := entries_of_fields (fields_lines hgood zeroBuilder [])
  have hfrom := @fromText_unfound reserve _ _ es hes zeroBuilder rfl
  rw [← hstored] at hfrom
  have hcall := @Reached.call reserve allowed zeroBuilder _ (.fresh 0 0 0 0)
    (hallowed ([MetaLine.t 1 n ['p']].flatMap MetaLine.text ++ ['\n']))
  simp only [Call.leaves, hfrom] at hcall
  exact hcall

/-- Tiles parsed on their own stay. -/
theorem reached_tile {n : UInt64} (hn : n ≠ 0) (hreserve : reserve n = .ok ()) :
    Reached reserve (fun _ => True) (roomyBuilder n [] [{ index := 1 }]) := by
  have hsize : reserve (reservedSize n 1) = .ok () := by rw [reservedSize_one hn, hreserve]
  have hparse := @parseTiles_some reserve (roomyBuilder n [] []) ['\n', '\n', '#'] ['#'] rfl hsize
  have hcall := @Reached.call reserve (fun _ => True) (roomyBuilder n [] [])
    (.parseTiles ['\n', '\n', '#']) (.fresh 0 0 1 n) trivial
  simp only [Call.leaves, hparse] at hcall
  exact hcall

section
variable (hes : Entries text es rest) (hpair : behindPair (rest.takeWhile goesOn) = some v)
include hes hpair

/-- A text that gives no builder a level has its tiles refused, with room for them. -/
theorem refused_of_none
    (h : ∀ b, Reached reserve allowed b → levelFrom reserve b text = .ok none) :
    v.all isTileChar = false ∧ ∀ b, reserve (room b es) = .ok () := by
  have hreserve : ∀ b, Reached reserve allowed b → reserve (room b es) = .ok () := by
    intro b hb
    have hnone := h b hb
    cases hreserve : reserve (room b es) with
    | error e =>
      rw [levelFrom_throws hes b hpair hreserve] at hnone
      cases hnone
    | ok _ => rfl
  constructor
  · have hfresh : Reached reserve allowed zeroBuilder := .fresh 0 0 0 0
    have hnone := h zeroBuilder hfresh
    rw [levelFrom_pair hes zeroBuilder hpair (hreserve zeroBuilder hfresh)] at hnone
    by_contra hall
    rw [if_pos (by simpa using hall)] at hnone
    cases hnone
  · intro b
    rw [← hreserve _ (.fresh b.width b.height b.tilesetWidth b.tilesetHeight)]
    exact congrArg reserve (room_eq (.inl rfl))

/-- Without a tileset the path is that of an earlier text. -/
theorem none_of_no_tileset (hallowed : ∀ is, allowed (.fromText is))
    (hroom : ∃ n, n ≠ 0 ∧ reserve n = .ok ()) (htileset : ¬ GivesTileset es)
    (hsame : ∀ b b', Reached reserve allowed b → Reached reserve allowed b' →
      levelFrom reserve b text = levelFrom reserve b' text)
    {b : LevelBuilder} (hb : Reached reserve allowed b) : levelFrom reserve b text = .ok none := by
  obtain ⟨n, hn, hreserve⟩ := hroom
  have hroomy : ∀ path, reserve (room (roomyBuilder n path []) es) = .ok () := by
    intro path
    rw [room_keeps htileset]
    show reserve (reservedSize n 1) = .ok ()
    rw [reservedSize_one hn, hreserve]
  have hkeeps : ∀ path, (stored (roomyBuilder n path []) es).pathToTileset = path := by
    intro path
    exact congrArg (fun t : UInt64 × UInt64 × List Char => t.2.2) (stored_tileset_keeps htileset _)
  have hempty := levelFrom_pair hes (roomyBuilder n [] []) hpair (hroomy [])
  have hpath := levelFrom_pair hes (roomyBuilder n ['p'] []) hpair (hroomy ['p'])
  have hfresh : Reached reserve allowed (roomyBuilder n [] []) := .fresh 0 0 1 n
  rw [hsame b _ hb hfresh, hempty]
  rw [hsame _ _ hfresh (reached_path hallowed n), hpath] at hempty
  by_cases hall : v.all isTileChar = true
  · rw [if_pos hall, if_pos hall] at hempty
    have hlevels := Option.some_inj.1 (Except.ok.inj hempty)
    have hpaths := congrArg Level.pathToTileset hlevels
    exact absurd ((hkeeps ['p']).symm.trans (hpaths.trans (hkeeps []))) (by decide)
  · rw [if_neg hall]

end

theorem settled_of_textOnly (hallowed : ∀ is, allowed (.fromText is))
    (hroom : ∃ n, n ≠ 0 ∧ reserve n = .ok ()) (h : TextOnly reserve allowed text) :
    Settled reserve text := by
  obtain ⟨hsame, hnothing⟩ := h
  intro es rest v hes hpair
  by_cases hsize : GivesWidth es ∧ GivesHeight es
  · by_cases htileset : GivesTileset es
    · exact .inl ⟨hsize.1, hsize.2, htileset⟩
    · have hnone : ∀ b, Reached reserve allowed b → levelFrom reserve b text = .ok none := by
        intro b hb
        exact none_of_no_tileset hes hpair hallowed hroom htileset hsame hb
      exact .inr (refused_of_none hes hpair hnone)
  · refine .inr (refused_of_none hes hpair (hnothing ?_))
    intro es' rest' hes'
    obtain ⟨rfl, -⟩ := entries_unique hes hes'
    exact hsize

theorem levelless_of_textOnly (hroom : ∃ n, n ≠ 0 ∧ reserve n = .ok ())
    (h : TextOnly reserve (fun _ => True) text) : Levelless reserve text := by
  have hsettled := settled_of_textOnly (fun _ => trivial) hroom h
  obtain ⟨n, hn, hreserve⟩ := hroom
  intro es rest v hes hpair
  by_contra hno
  rw [not_or, not_forall, Bool.not_eq_false] at hno
  obtain ⟨hall, b, hb⟩ := hno
  rcases hsettled es rest v hes hpair with ⟨-, -, htileset⟩ | ⟨hrefused, -⟩
  · have hroom : ∀ b', reserve (room b' es) = .ok () := by
      intro b'
      rw [@room_eq es b' b (.inr htileset)]
      exact not_not.1 hb
    have hlevels := h.1 _ _ (.fresh 0 0 1 n) (reached_tile hn hreserve)
    rw [levelFrom_pair hes _ hpair (hroom _), levelFrom_pair hes _ hpair (hroom _), if_pos hall,
      if_pos hall] at hlevels
    have htiles := congrArg Level.tiles (Option.some_inj.1 (Except.ok.inj hlevels))
    have hlength := congrArg List.length htiles
    simp [LevelBuilder.toLevel, roomyBuilder] at hlength
  · rw [hall] at hrefused
    cases hrefused

/-- **`FromText` depends only on its text exactly if the text gives all there is or is refused;
and, where `ParseTiles` was called on its own, if no level comes out as well.** -/
theorem textOnly_iff (hroom : ∃ n, n ≠ 0 ∧ reserve n = .ok ()) :
    (TextOnly reserve Call.IsFromText text ↔ Settled reserve text) ∧
    (TextOnly reserve (fun _ => True) text ↔ Settled reserve text ∧ Levelless reserve text) := by
  refine ⟨⟨?_, ?_⟩, ⟨?_, ?_⟩⟩
  · exact settled_of_textOnly (fun _ => trivial) hroom
  · intro hsettled
    refine textOnly_of_settled hsettled ?_
    intro es rest v hes hpair hwidth hheight htileset b b' hb hb'
    exact same_level hes hpair hwidth hheight htileset
      ((reached_tiles hb).trans (reached_tiles hb').symm)
  · intro h
    exact ⟨settled_of_textOnly (fun _ => trivial) hroom h, levelless_of_textOnly hroom h⟩
  · rintro ⟨hsettled, hlevelless⟩
    refine textOnly_of_settled hsettled ?_
    intro es rest v hes hpair hwidth hheight htileset b b' _ _
    have hroom : room b es = room b' es := room_eq (.inr htileset)
    cases hreserve : reserve (room b es) with
    | error e =>
      rw [levelFrom_throws hes b hpair hreserve,
        levelFrom_throws hes b' hpair (hroom ▸ hreserve)]
    | ok _ =>
      have hrefused : v.all isTileChar = false :=
        (hlevelless es rest v hes hpair).resolve_right fun hno => hno b hreserve
      rw [levelFrom_pair hes b hpair hreserve, levelFrom_pair hes b' hpair (hroom ▸ hreserve),
        if_neg (Bool.eq_false_iff.1 hrefused), if_neg (Bool.eq_false_iff.1 hrefused)]

/-- A vector that throws beyond its `max_size`. -/
def smallReserve (n : UInt64) : Except Stop Unit :=
  if n < 2305843009213693952 then .ok () else .error .exception

theorem textOnly_iff_small :
    TextOnly smallReserve Call.IsFromText "x:2\ny:1\nt:1:1:p\n\n\n\n#.".toList := by
  have hpath : Path ['p'] ":p\n\n\n\n#.".toList "\n\n\n#.".toList :=
    ⟨['\n'], rfl, by decide, .newline _ (by decide)⟩
  have hlines : Entries "x:2\ny:1\nt:1:1:p\n\n\n\n#.".toList _ "\n\n#.".toList :=
    .x (number_line 2 "y:1\nt:1:1:p\n\n\n\n#.".toList)
      (.y (number_line 1 "t:1:1:p\n\n\n\n#.".toList)
        (.t (number_colon 1 "1:p\n\n\n\n#.".toList) (number_colon 1 "p\n\n\n\n#.".toList) hpath
          (.done _)))
  refine (@textOnly_iff smallReserve _ ⟨1, by decide, if_pos (by decide)⟩).1.2 ?_
  intro es rest v hes _
  obtain ⟨rfl, -⟩ := entries_unique hlines hes
  exact .inl ⟨⟨_, .head _, 2, rfl⟩, ⟨_, .tail _ (.head _), 1, rfl⟩,
    ⟨_, .tail _ (.tail _ (.head _)), 1, 1, ['p'], rfl⟩⟩

/-- A level as wide as an earlier text says. -/
theorem not_textOnly :
    levelFrom (fun _ => .ok ())
      ((Call.fromText "x:7\n\n".toList).leaves (fun _ => .ok ()) zeroBuilder)
        "y:1\nt:1:1:p\n\n\n\n#.".toList =
      .ok (some { tiles := [{ index := 1 }, { index := 2 }], width := 7, height := 1,
                  pathToTileset := ['p'] }) ∧
    ¬ TextOnly (fun _ => .ok ()) Call.IsFromText "y:1\nt:1:1:p\n\n\n\n#.".toList := by
  have hlevel : levelFrom (fun _ => .ok ())
      ((Call.fromText "x:7\n\n".toList).leaves (fun _ => .ok ()) zeroBuilder)
        "y:1\nt:1:1:p\n\n\n\n#.".toList =
      .ok (some { tiles := [{ index := 1 }, { index := 2 }], width := 7, height := 1,
                  pathToTileset := ['p'] }) := by
    decide +kernel
  refine ⟨hlevel, ?_⟩
  rintro ⟨hsame, -⟩
  have hfresh : Reached (fun _ => .ok ()) Call.IsFromText zeroBuilder := .fresh 0 0 0 0
  have hused := @Reached.call _ _ _ (.fromText "x:7\n\n".toList) hfresh trivial
  have heq := hsame _ _ hused hfresh
  rw [hlevel] at heq
  exact absurd heq (by decide +kernel)

end Gamejam
