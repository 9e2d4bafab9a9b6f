import Sprawl.Gamejam.Metadata

/-!
# Levels from text (`gamejam/level_builder.cc`, `gamejam/level.h`)

Behind the metadata `ParseTiles` looks for two newlines in a row and takes every tile
character from there on, whatever the lines; nothing compares their number with width and
height.  A text written row by row comes out as its grid (`fromText_grid`), and a level
has its `Width() * Height()` tiles exactly if the text does (`level_full_iff`).

`reserve` stands for `tiles_.reserve(n)`, which may throw.
-/

namespace Gamejam

open Cxx

/-- The first loop of `ParseTiles`: what is behind two newlines in a row. -/
def findTiles (prev : Char) : List Char → Option (List Char)
  | [] => none
  | c :: is =>
    if c = '\x00' ∨ c = eof then none
    else if prev = '\n' ∧ c = '\n' then some is
    else findTiles c is

/-- The second loop: the tiles, unless a character is none. -/
def readTiles (tiles : List Tile) : List Char → Option (List Tile)
  | [] => some tiles
  | c :: is =>
    if c = '\x00' ∨ c = eof then some tiles
    else if c = ' ' then readTiles (tiles ++ [{ index := 0 }]) is
    else if c = '#' then readTiles (tiles ++ [{ index := 1 }]) is
    else if c = '.' then readTiles (tiles ++ [{ index := 2 }]) is
    else if c = '\n' then readTiles tiles is
    else none

/-- What `ParseTiles` reserves. -/
def reservedSize (tilesetHeight tilesetWidth : UInt64) : UInt64 :=
  if tilesetHeight * tilesetWidth ≠ 0 then tilesetHeight * tilesetWidth else 256

structure Level where
  tiles : List Tile
  width : UInt64
  height : UInt64
  pathToTileset : List Char
deriving DecidableEq

def LevelBuilder.toLevel (b : LevelBuilder) : Level :=
  { tiles := b.tiles, width := b.width, height := b.height, pathToTileset := b.pathToTileset }

/-- `At`. -/
def Level.at (level : Level) (x y : UInt64) : Except Stop Tile :=
  readAt level.tiles (level.width * y + x).toNat

section
variable (reserve : UInt64 → Except Stop Unit)

def parseTiles (b : LevelBuilder) (is : List Char) : Except Stop (ParseStatus × LevelBuilder) :=
  match findTiles '\x00' is with
  | none => .ok (.error, b)
  | some is =>
    match reserve (reservedSize b.tilesetHeight b.tilesetWidth) with
    | .error e => .error e
    | .ok () =>
      match readTiles b.tiles is with
      | none => .ok (.error, { b with tiles := [] })
      | some tiles => .ok (.success, { b with tiles })

/-- `FromText`, with the builder it leaves: the tiles are moved into the level. -/
def fromText (b : LevelBuilder) (is : List Char) : Except Stop (Option Level × LevelBuilder) :=
  match parseMetadata b is with
  | (.success, b, is) =>
    match parseTiles reserve b is with
    | .error e => .error e
    | .ok (.success, b) => .ok (some b.toLevel, { b with tiles := [] })
    | .ok (_, b) => .ok (none, b)
  | (_, b, _) => .ok (none, b)

end

section
variable {reserve : UInt64 → Except Stop Unit}

/-- The one way a level comes out: fields, the place of the tiles, and tile characters only. -/
theorem fromText_some_iff {b b' : LevelBuilder} {is : List Char} {level : Level} :
    fromText reserve b is = .ok (some level, b') ↔
      ∃ c rest tilesText tiles, Fields b is c rest ∧ findTiles '\x00' rest = some tilesText ∧
        reserve (reservedSize c.tilesetHeight c.tilesetWidth) = .ok () ∧
        readTiles c.tiles tilesText = some tiles ∧
        level = { c with tiles }.toLevel ∧ b' = { c with tiles := [] } := by
  constructor
  · intro h
    unfold fromText at h
    split at h
    · next c rest hmeta =>
      unfold parseTiles at h
      split at h
      · cases h
      · next c' hparse =>
        cases h
        split at hparse
        · cases hparse
        · next tilesText hfind =>
          split at hparse
          · cases hparse
          · next hreserve =>
            split at hparse
            · cases hparse
            · next tiles htiles =>
              cases hparse
              exact ⟨c, rest, tilesText, tiles, parseMetadata_iff.1 hmeta, hfind, hreserve, htiles,
                rfl, rfl⟩
      · cases h
    · cases h
  · rintro ⟨c, rest, tilesText, tiles, hmeta, hfind, hreserve, htiles, rfl, rfl⟩
    unfold fromText parseTiles
    rw [parseMetadata_iff.2 hmeta]
    simp only [hfind, hreserve, htiles]

end

/-! ## Texts written for a grid -/

/-- A number in base 10. -/
def decimal (n : UInt64) : List Char := Nat.toDigits 10 n.toNat

/-- A line of the metadata. -/
inductive MetaLine
  | x (width : UInt64)
  | y (height : UInt64)
  | t (tilesetWidth tilesetHeight : UInt64) (path : List Char)
deriving DecidableEq

def MetaLine.text : MetaLine → List Char
  | x width => 'x' :: ':' :: (decimal width ++ ['\n'])
  | y height => 'y' :: ':' :: (decimal height ++ ['\n'])
  | t tilesetWidth tilesetHeight path =>
    't' :: ':' ::
      (decimal tilesetWidth ++ ':' :: (decimal tilesetHeight ++ ':' :: (path ++ ['\n'])))

/-- `h` rows of `w` tile indices. -/
structure Grid (w h : Nat) where
  rows : List (List Nat)
  length_rows : rows.length = h
  length_row : ∀ row ∈ rows, row.length = w
  tile_lt : ∀ row ∈ rows, ∀ i ∈ row, i < 3

/-- The tile in column `x` of row `y`. -/
def Grid.tile {w h : Nat} (grid : Grid w h) (x y : Nat) : Nat := (grid.rows.getD y []).getD x 0

def tileChar (index : Nat) : Char :=
  if index = 0 then ' ' else if index = 1 then '#' else '.'

/-- The tile with an index. -/
def tileOf (index : Nat) : Tile := { index := index }

def rowText (row : List Nat) : List Char := row.map tileChar ++ ['\n']

/-- The metadata lines, some empty lines, and the rows. -/
def levelText (lines : List MetaLine) (emptyLines : Nat) (rows : List (List Nat)) : List Char :=
  lines.flatMap MetaLine.text ++ List.replicate emptyLines '\n' ++ rows.flatMap rowText

theorem decimal_digits (n : UInt64) : ∀ c ∈ decimal n, (digitVal 10 c).isSome := by
  obtain ⟨ds, hlt, hmap, -⟩ := @exists_digits 10 n.toNat (by decide)
  refine @forall_digitVal_isSome 10 _ ds ?_
  rw [decimal, hmap, map_digitVal_digitChar hlt (by decide)]

theorem decimal_chars (n : UInt64) : ∀ c ∈ decimal n, c ≠ ':' ∧ c ≠ '\n' ∧ c ≠ eof := by
  intro c hc
  have hdigit := decimal_digits n c hc
  refine ⟨?_, ?_, ?_⟩
  all_goals rintro rfl; exact absurd hdigit (by decide)

theorem decimal_value (n : UInt64) : (strtoull 10 (decimal n)).getD 0 = n := by
  rw [decimal, strtoull_toDigits (by decide) (by decide) n.toNat_lt, Option.getD_some]
  simp

theorem number_line (n : UInt64) (rest : List Char) :
    Number n (':' :: (decimal n ++ '\n' :: rest)) rest :=
  ⟨decimal n, ['\n'], by simp, (decimal_value n).symm, decimal_chars n,
    .inl (.newline _ Nat.toDigits_ne_nil)⟩

theorem number_colon (n : UInt64) (rest : List Char) :
    Number n (':' :: (decimal n ++ ':' :: rest)) (':' :: rest) :=
  ⟨decimal n, [], by simp, (decimal_value n).symm, decimal_chars n, .inr ⟨rfl, rfl⟩⟩

/-- A path that ends where its line does. -/
def MetaLine.Good : MetaLine → Prop
  | t _ _ path => path ≠ [] ∧ ∀ c ∈ path, c ≠ '\n' ∧ c ≠ eof
  | _ => True

/-- What a line sets. -/
def MetaLine.apply (b : LevelBuilder) : MetaLine → LevelBuilder
  | x width => { b with width }
  | y height => { b with height }
  | t tilesetWidth tilesetHeight path =>
    { b with tilesetWidth, tilesetHeight, pathToTileset := path }

theorem fields_lines {lines : List MetaLine} (hgood : ∀ l ∈ lines, l.Good) (b : LevelBuilder)
    (rest : List Char) :
    Fields b (lines.flatMap MetaLine.text ++ '\n' :: rest) (lines.foldl MetaLine.apply b) rest := by
  induction lines generalizing b with
  | nil => exact .done b rest
  | cons l lines ih =>
    obtain ⟨hl, hgood⟩ := List.forall_mem_cons.1 hgood
    have hrest := ih hgood (l.apply b)
    rw [List.flatMap_cons, List.append_assoc, List.foldl_cons]
    generalize lines.flatMap MetaLine.text ++ '\n' :: rest = text at hrest ⊢
    cases l with
    | x width =>
      rw [MetaLine.text, List.cons_append, List.cons_append, List.append_assoc]
      exact .x (number_line width text) hrest
    | y height =>
      rw [MetaLine.text, List.cons_append, List.cons_append, List.append_assoc]
      exact .y (number_line height text) hrest
    | t tilesetWidth tilesetHeight path =>
      have hpath : Path path (':' :: (path ++ '\n' :: text)) text :=
        ⟨['\n'], by simp, hl.2, .newline _ hl.1⟩
      simp only [MetaLine.text, List.cons_append, List.append_assoc, List.nil_append]
      exact .t (number_colon tilesetWidth _) (number_colon tilesetHeight _) hpath hrest

theorem readTiles_row {row : List Nat} (hrow : ∀ i ∈ row, i < 3) (tiles : List Tile)
    (is : List Char) : readTiles tiles (row.map tileChar ++ is) =
      readTiles (tiles ++ row.map tileOf) is := by
  induction row generalizing tiles with
  | nil => simp
  | cons i row ih =>
    obtain ⟨hi, hrow⟩ := List.forall_mem_cons.1 hrow
    have hstep : readTiles tiles (tileChar i :: (row.map tileChar ++ is)) =
        readTiles (tiles ++ [tileOf i]) (row.map tileChar ++ is) := by
      interval_cases i <;> rfl
    rw [List.map_cons, List.cons_append, hstep, ih hrow, List.append_assoc, List.map_cons,
      List.singleton_append]

theorem readTiles_newlines (n : Nat) (tiles : List Tile) (is : List Char) :
    readTiles tiles (List.replicate n '\n' ++ is) = readTiles tiles is := by
  induction n with
  | zero => rfl
  | succ n ih =>
    rw [List.replicate_succ, List.cons_append]
    exact ih

theorem readTiles_rows {rows : List (List Nat)} (hrows : ∀ row ∈ rows, ∀ i ∈ row, i < 3)
    (tiles : List Tile) :
    readTiles tiles (rows.flatMap rowText) =
      some (tiles ++ rows.flatten.map tileOf) := by
  induction rows generalizing tiles with
  | nil => simp [readTiles]
  | cons row rows ih =>
    obtain ⟨hrow, hrows⟩ := List.forall_mem_cons.1 hrows
    rw [List.flatMap_cons, rowText, List.append_assoc, readTiles_row hrow, List.singleton_append]
    show readTiles _ (rows.flatMap rowText) = _
    rw [ih hrows, List.flatten_cons, List.map_append, List.append_assoc]

theorem findTiles_newlines (s : List Char) : findTiles '\x00' ('\n' :: '\n' :: s) = some s := rfl

/-- Row by row, the tile `x` of the row `y` comes at `w * y + x`. -/
theorem flatten_getElem? {w : Nat} {rows : List (List Nat)} (hrows : ∀ row ∈ rows, row.length = w)
    {x y : Nat} (hx : x < w) (hy : y < rows.length) :
    rows.flatten[w * y + x]? = some ((rows.getD y []).getD x 0) := by
  induction rows generalizing y with
  | nil => exact absurd hy (Nat.not_lt_zero _)
  | cons row rows ih =>
    obtain ⟨hrow, hrows⟩ := List.forall_mem_cons.1 hrows
    rw [List.flatten_cons]
    cases y with
    | zero =>
      have hlt : x < row.length := by omega
      rw [Nat.mul_zero, Nat.zero_add, List.getElem?_append_left hlt]
      simp [hlt]
    | succ y =>
      have hy' : y < rows.length := by simpa using hy
      have hge : row.length ≤ w * (y + 1) + x := by
        rw [hrow, Nat.mul_succ]
        omega
      rw [List.getElem?_append_right hge,
        show w * (y + 1) + x - row.length = w * y + x by rw [hrow, Nat.mul_succ]; omega,
        ih hrows hy']
      rfl

theorem length_flatten {w : Nat} {rows : List (List Nat)} (hrows : ∀ row ∈ rows, row.length = w) :
    rows.flatten.length = w * rows.length := by
  have hsum : rows.map List.length = List.replicate rows.length w := by
    rw [List.map_congr_left hrows, List.map_const']
  rw [List.length_flatten, hsum, List.sum_replicate, smul_eq_mul, Nat.mul_comm]

/-- The index `At` computes does not wrap. -/
theorem index_toNat {w h x y : UInt64} (hx : x < w) (hy : y < h)
    (hsize : w.toNat * h.toNat < 2 ^ 64) :
    (w * y + x).toNat = w.toNat * y.toNat + x.toNat ∧
      w.toNat * y.toNat + x.toNat < w.toNat * h.toNat := by
  have hx' : x.toNat < w.toNat := hx
  have hy' : y.toNat < h.toNat := hy
  have hindex : w.toNat * y.toNat + x.toNat < w.toNat * h.toNat := by
    have hle : w.toNat * (y.toNat + 1) ≤ w.toNat * h.toNat := Nat.mul_le_mul_left _ hy'
    rw [Nat.mul_succ] at hle
    omega
  have hmul : (w * y).toNat = w.toNat * y.toNat := by
    rw [UInt64.toNat_mul]
    exact Nat.mod_eq_of_lt (by omega)
  refine ⟨?_, hindex⟩
  rw [UInt64.toNat_add, hmul]
  exact Nat.mod_eq_of_lt (by omega)

/-- The three lines set the same in any order. -/
theorem foldl_lines {lines : List MetaLine} {w h tw th : UInt64} {path : List Char}
    (hlines : lines.Perm [.x w, .y h, .t tw th path]) (b : LevelBuilder) :
    lines.foldl MetaLine.apply b =
      { b with width := w, height := h, tilesetWidth := tw, tilesetHeight := th,
               pathToTileset := path } := by
  refine (hlines.foldl_eq' (fun l hl m hm c => ?_) b).trans rfl
  have hl' := hlines.mem_iff.1 hl
  have hm' := hlines.mem_iff.1 hm
  simp only [List.mem_cons, List.not_mem_nil, or_false] at hl' hm'
  rcases hl' with rfl | rfl | rfl
  all_goals rcases hm' with rfl | rfl | rfl <;> rfl

theorem length_levelText {w h : Nat} (grid : Grid w h) (lines : List MetaLine) (n : Nat) :
    w * h ≤ (levelText lines n grid.rows).length := by
  have hrows : ∀ rows : List (List Nat), rows.flatten.length ≤ (rows.flatMap rowText).length := by
    intro rows
    induction rows with
    | nil => simp
    | cons row rows ih =>
      rw [List.flatten_cons, List.flatMap_cons, List.length_append, List.length_append, rowText,
        List.length_append, List.length_map]
      omega
  have hlen := length_flatten grid.length_row
  have hle := hrows grid.rows
  rw [grid.length_rows] at hlen
  rw [levelText, List.length_append]
  omega

variable {reserve : UInt64 → Except Stop Unit}

/-- **A level written row by row is read as its grid.** -/
theorem fromText_grid {w h tw th : UInt64} {path : List Char} {lines : List MetaLine} {n : Nat}
    (b : LevelBuilder) (grid : Grid w.toNat h.toNat) (text : Sized Char) (hb : b.tiles = [])
    (hreserve : reserve (reservedSize th tw) = .ok ())
    (hpath : path ≠ [] ∧ ∀ c ∈ path, c ≠ '\n' ∧ c ≠ eof)
    (hlines : lines.Perm [.x w, .y h, .t tw th path]) (hn : 3 ≤ n)
    (htext : text.elems = levelText lines n grid.rows) :
    ∃ level b', fromText reserve b text.elems = .ok (some level, b') ∧ level.width = w ∧
      level.height = h ∧ level.pathToTileset = path ∧
      ∀ x y, x < w → y < h → level.at x y = .ok (tileOf (grid.tile x.toNat y.toNat)) := by
  obtain ⟨m, rfl⟩ : ∃ m, n = m + 3 := ⟨n - 3, by omega⟩
  have hgood : ∀ l ∈ lines, l.Good := by
    intro l hl
    have hl' := hlines.mem_iff.1 hl
    simp only [List.mem_cons, List.not_mem_nil, or_false] at hl'
    rcases hl' with rfl | rfl | rfl
    · trivial
    · trivial
    · exact hpath
  have hsplit : text.elems = lines.flatMap MetaLine.text ++
      '\n' :: '\n' :: '\n' :: (List.replicate m '\n' ++ grid.rows.flatMap rowText) := by
    rw [htext, levelText, List.append_assoc]
    rfl
  have hmeta := fields_lines hgood b
    ('\n' :: '\n' :: (List.replicate m '\n' ++ grid.rows.flatMap rowText))
  rw [← hsplit, foldl_lines hlines b] at hmeta
  have htiles : readTiles b.tiles (List.replicate m '\n' ++ grid.rows.flatMap rowText) =
      some (grid.rows.flatten.map tileOf) := by
    rw [hb, readTiles_newlines, readTiles_rows grid.tile_lt, List.nil_append]
  have hlevel := fromText_some_iff.2
    ⟨_, _, _, _, hmeta, findTiles_newlines _, hreserve, htiles, rfl, rfl⟩
  refine ⟨_, _, hlevel, rfl, rfl, rfl, fun x y hx hy => ?_⟩
  have hsize : w.toNat * h.toNat < 2 ^ 64 := by
    have hle := length_levelText grid lines (m + 3)
    have hlt := text.size_lt
    rw [htext] at hlt
    omega
  have hx' : x.toNat < w.toNat := hx
  have hy' : y.toNat < grid.rows.length := grid.length_rows.symm ▸ hy
  show readAt (grid.rows.flatten.map tileOf) (w * y + x).toNat = _
  rw [readAt_eq_ok, (index_toNat hx hy hsize).1, List.getElem?_map,
    flatten_getElem? grid.length_row hx' hy']
  rfl

/-- One row of the tiles 1 and 2. -/
def smallGrid : Grid 2 1 where
  rows := [[1, 2]]
  length_rows := rfl
  length_row := by decide
  tile_lt := by decide

def zeroBuilder : LevelBuilder :=
  { width := 0, height := 0, pathToTileset := [], tilesetWidth := 0, tilesetHeight := 0,
    tiles := [] }

def smallLines : List MetaLine := [.y 1, .t 8 9 ['p'], .x 2]

theorem fromText_grid_small :
    ∃ level b', fromText (fun _ => .ok ()) zeroBuilder (levelText smallLines 3 smallGrid.rows) =
        .ok (some level, b') ∧ level.width = 2 ∧ level.height = 1 ∧ level.pathToTileset = ['p'] ∧
      ∀ x y, x < 2 → y < 1 → level.at x y = .ok (tileOf (smallGrid.tile x.toNat y.toNat)) :=
  @fromText_grid (fun _ => .ok ()) 2 1 8 9 ['p'] smallLines 3 zeroBuilder smallGrid
    ⟨levelText smallLines 3 smallGrid.rows, by decide +kernel⟩ rfl rfl ⟨by decide, by decide⟩
    (by decide) (Nat.le_refl 3) rfl

/-! ## How many tiles a level has -/

/-- A character that does not end the tiles. -/
def goesOn (c : Char) : Bool := c ≠ '\x00' ∧ c ≠ eof

/-- What is behind the first two newlines in a row. -/
def behindBlank : List Char → List Char
  | [] => []
  | [_] => []
  | c :: d :: s => if c = '\n' ∧ d = '\n' then s else behindBlank (d :: s)

/-- The tile characters of a text behind its metadata: up to a NUL or 0xFF, all but the newlines
behind the first two newlines in a row. -/
def tileChars (rest : List Char) : List Char :=
  (behindBlank (rest.takeWhile goesOn)).filter (· ≠ '\n')

/-- The text has as many tile characters as the width and the height of its metadata make, with
the tiles that the builder holds already. -/
def TilesFit (b : LevelBuilder) (text : List Char) : Prop :=
  ∃ c rest, Fields b text c rest ∧
    b.tiles.length + (tileChars rest).length = c.width.toNat * c.height.toNat

/-- `Width() * Height()` tiles, and `At` reads inside them. -/
def Level.Full (level : Level) : Prop :=
  level.tiles.length = level.width.toNat * level.height.toNat ∧
    ∀ x y, x < level.width → y < level.height → ∃ tile, level.at x y = .ok tile

/-- With as many tiles as that, `At` reads inside them. -/
theorem Level.full_of_length {level : Level}
    (hfull : level.tiles.length = level.width.toNat * level.height.toNat)
    (hsize : level.tiles.length < 2 ^ 63) : level.Full := by
  refine ⟨hfull, fun x y hx hy => ?_⟩
  obtain ⟨hindex, hbound⟩ := index_toNat hx hy (by omega)
  have hin : (level.width * y + x).toNat < level.tiles.length := by
    rw [hindex, hfull]
    exact hbound
  exact ⟨level.tiles[(level.width * y + x).toNat], readAt_eq_ok.2 (List.getElem?_eq_getElem hin)⟩

theorem fields_tiles {b c : LevelBuilder} {text rest : List Char} (h : Fields b text c rest) :
    c.tiles = b.tiles := by
  induction h with
  | done b rest => rfl
  | x _ _ ih => exact ih
  | y _ _ ih => exact ih
  | t _ _ _ _ ih => exact ih

/-- What is behind the first two newlines in a row, if there are any. -/
def behindPair : List Char → Option (List Char)
  | [] => none
  | [_] => none
  | c :: d :: s => if c = '\n' ∧ d = '\n' then some s else behindPair (d :: s)

/-- The characters that may stand behind the two newlines. -/
def isTileChar (c : Char) : Bool := c = ' ' ∨ c = '#' ∨ c = '.' ∨ c = '\n'

/-- The tile index of a character. -/
def tileIndex (c : Char) : Int := if c = ' ' then 0 else if c = '#' then 1 else 2

/-- A tile for each character but the newlines. -/
def tilesOf (s : List Char) : List Tile :=
  (s.filter (· ≠ '\n')).map fun c => { index := tileIndex c }

theorem behindBlank_eq (s : List Char) : behindBlank s = (behindPair s).getD [] := by
  fun_induction behindPair s with
  | case1 => rfl
  | case2 c => rfl
  | case3 c d s hpair => rw [behindBlank, if_pos hpair, Option.getD_some]
  | case4 c d s hpair ih => rw [behindBlank, if_neg hpair, ih]

/-- The first loop sees the text up to a NUL or 0xFF, with the character before it in front. -/
theorem behindPair_takeWhile (prev : Char) (is : List Char) :
    behindPair (prev :: is.takeWhile goesOn) =
      (findTiles prev is).map fun s => s.takeWhile goesOn := by
  induction is generalizing prev with
  | nil => rfl
  | cons c is ih =>
    rw [findTiles]
    by_cases hstop : c = '\x00' ∨ c = eof
    · have hstops : ¬ goesOn c = true := by simpa [goesOn, imp_iff_not_or] using hstop
      rw [List.takeWhile_cons_of_neg hstops, if_pos hstop]
      rfl
    · have hgoes : goesOn c = true := by simpa [goesOn] using hstop
      rw [List.takeWhile_cons_of_pos hgoes, if_neg hstop, behindPair]
      by_cases hpair : prev = '\n' ∧ c = '\n'
      · rw [if_pos hpair, if_pos hpair, Option.map_some]
      · rw [if_neg hpair, if_neg hpair, ih]

/-- One character that goes on: a tile character, or the end of it all. -/
theorem readTiles_cons {c : Char} (hgoes : ¬ (c = '\x00' ∨ c = eof)) (tiles : List Tile)
    (is : List Char) : readTiles tiles (c :: is) =
      if isTileChar c then readTiles (tiles ++ tilesOf [c]) is else none := by
  rw [readTiles, if_neg hgoes]
  by_cases hspace : c = ' '
  · subst hspace
    rfl
  · by_cases hwall : c = '#'
    · subst hwall
      rfl
    · by_cases hdot : c = '.'
      · subst hdot
        rfl
      · by_cases hnewline : c = '\n'
        · subst hnewline
          rw [if_neg (by decide), if_neg (by decide), if_neg (by decide), if_pos rfl]
          exact (congrArg (readTiles · is) (List.append_nil tiles)).symm
        · rw [if_neg hspace, if_neg hwall, if_neg hdot, if_neg hnewline,
            if_neg (by simp [isTileChar, hspace, hwall, hdot, hnewline])]

theorem tilesOf_cons (c : Char) (s : List Char) : tilesOf (c :: s) = tilesOf [c] ++ tilesOf s := by
  rw [tilesOf, tilesOf, tilesOf, ← List.map_append, ← List.filter_append, List.singleton_append]

/-- The second loop takes the tiles up to a NUL or 0xFF, if there is nothing else. -/
theorem readTiles_eq (tiles : List Tile) (is : List Char) : readTiles tiles is =
    if (is.takeWhile goesOn).all isTileChar then some (tiles ++ tilesOf (is.takeWhile goesOn))
    else none := by
  induction is generalizing tiles with
  | nil =>
    rw [readTiles]
    exact congrArg some (List.append_nil tiles).symm
  | cons c is ih =>
    by_cases hstop : c = '\x00' ∨ c = eof
    · have hstops : ¬ goesOn c = true := by simpa [goesOn, imp_iff_not_or] using hstop
      rw [readTiles, if_pos hstop, List.takeWhile_cons_of_neg hstops]
      exact congrArg some (List.append_nil tiles).symm
    · have hgoes : goesOn c = true := by simpa [goesOn] using hstop
      rw [readTiles_cons hstop, ih, List.takeWhile_cons_of_pos hgoes, List.all_cons,
        tilesOf_cons c (is.takeWhile goesOn), List.append_assoc]
      by_cases hc : isTileChar c = true
      · rw [if_pos hc, hc, Bool.true_and]
      · rw [if_neg hc, Bool.eq_false_iff.2 hc, Bool.false_and]
        rfl

theorem readTiles_length {tiles out : List Tile} {is : List Char}
    (h : readTiles tiles is = some out) :
    out.length = tiles.length + ((is.takeWhile goesOn).filter (· ≠ '\n')).length := by
  rw [readTiles_eq] at h
  split at h
  · cases h
    rw [List.length_append, tilesOf, List.length_map]
  · cases h

theorem behindPair_nul (s : List Char) : behindPair ('\x00' :: s) = behindPair s := by
  cases s with
  | nil => rfl
  | cons c s => exact if_neg (by simp)

/-- **A level is full exactly if its text has tiles for it.** -/
theorem level_full_iff {b b' : LevelBuilder} {text : List Char} {level : Level}
    (h : fromText reserve b text = .ok (some level, b')) (hsize : level.tiles.length < 2 ^ 63) :
    level.Full ↔ TilesFit b text := by
  obtain ⟨c, rest, tilesText, tiles, hmeta, hfind, -, htiles, rfl, -⟩ := fromText_some_iff.1 h
  have hcount : tiles.length = b.tiles.length + (tileChars rest).length := by
    rw [readTiles_length htiles, fields_tiles hmeta, tileChars, behindBlank_eq, ← behindPair_nul,
      behindPair_takeWhile, hfind, Option.map_some, Option.getD_some]
  constructor
  · rintro ⟨hfull, -⟩
    exact ⟨c, rest, hmeta, hcount.symm.trans hfull⟩
  · rintro ⟨c', rest', hmeta', hfit⟩
    have hsame := (parseMetadata_iff.2 hmeta).symm.trans (parseMetadata_iff.2 hmeta')
    cases hsame
    exact Level.full_of_length (hcount.trans hfit) hsize

/-- The level of `fromText_grid_small`. -/
def smallLevel : Level :=
  { tiles := [{ index := 1 }, { index := 2 }], width := 2, height := 1, pathToTileset := ['p'] }

theorem level_full_iff_small :
    smallLevel.Full ↔ TilesFit zeroBuilder (levelText smallLines 3 smallGrid.rows) := by
  have hlevel : fromText (fun _ => .ok ()) zeroBuilder (levelText smallLines 3 smallGrid.rows) =
      .ok (some smallLevel, { zeroBuilder with width := 2, height := 1, pathToTileset := ['p'],
                                               tilesetWidth := 8, tilesetHeight := 9 }) := by
    decide +kernel
  exact level_full_iff hlevel (by decide)

/-- A level of width 2 and height 2 from a text with one tile. -/
theorem level_not_full : ∃ level b',
    fromText (fun _ => .ok ()) zeroBuilder "x:2\ny:2\nt:1:1:p\n\n\n\n#\n".toList =
      .ok (some level, b') ∧ ¬ level.Full := by
  refine ⟨{ tiles := [{ index := 1 }], width := 2, height := 2, pathToTileset := ['p'] },
    { zeroBuilder with width := 2, height := 2, pathToTileset := ['p'], tilesetWidth := 1,
                       tilesetHeight := 1 }, by decide +kernel, ?_⟩
  rintro ⟨hfull, -⟩
  exact absurd hfull (by decide)

end Gamejam
