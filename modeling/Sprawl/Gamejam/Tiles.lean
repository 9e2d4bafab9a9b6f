import Sprawl.Gamejam.Level

/-!
# The tiles of a level (`ParseTiles`)

Both loops run `while ((c = is.get()) && c != EOF)`, so a NUL and a byte 0xFF end them like
the end of the text.  Behind the two newlines either byte hides what follows from the
check of the tile characters; in front of them it hides the newlines.  `ParseTiles` does
what its text asks for exactly if no such byte changes the outcome and `reserve` returns
(`parsesRight_iff`).
-/

namespace Gamejam

open Cxx

variable {reserve : UInt64 → Except Stop Unit} {b : LevelBuilder} {is v : List Char}
  {tiles : List Tile}

/-- A text with two newlines in a row, and behind the first such pair only tile characters:
those of `tiles`. -/
def Tiled (is : List Char) (tiles : List Tile) : Prop :=
  ∃ s, behindPair is = some s ∧ s.all isTileChar = true ∧ tiles = tilesOf s

/-- A tiled text gives its tiles, any other `kError` and none. -/
def ParsesRight (reserve : UInt64 → Except Stop Unit) (b : LevelBuilder) (is : List Char) : Prop :=
  (∀ tiles, Tiled is tiles → parseTiles reserve b is = .ok (.success, { b with tiles })) ∧
  ((∀ tiles, ¬ Tiled is tiles) → parseTiles reserve b is = .ok (.error, { b with tiles := [] }))

/-- No NUL or 0xFF; or one behind the pair of newlines, with a character that is refused between
them; or one in front of the pair, of a text that is refused anyway. -/
def Unconfused (is : List Char) : Prop :=
  (∀ c ∈ is, goesOn c = true) ∨
  (∃ v, behindPair (is.takeWhile goesOn) = some v ∧ v.all isTileChar = false) ∨
  (behindPair (is.takeWhile goesOn) = none ∧ ∀ tiles, ¬ Tiled is tiles)

/-! ## What the two loops do -/

/-- Where `ParseTiles` starts reading tiles. -/
theorem findTiles_eq (is : List Char) :
    (findTiles '\x00' is).map (fun s => s.takeWhile goesOn) =
      behindPair (is.takeWhile goesOn) := by
  rw [← behindPair_takeWhile, behindPair_nul]

theorem parseTiles_none (hpair : behindPair (is.takeWhile goesOn) = none) :
    parseTiles reserve b is = .ok (.error, b) := by
  have hfind : findTiles '\x00' is = none := by
    rwa [← findTiles_eq, Option.map_eq_none_iff] at hpair
  unfold parseTiles
  rw [hfind]

section
variable (hpair : behindPair (is.takeWhile goesOn) = some v)
include hpair

theorem findTiles_pair : ∃ s, findTiles '\x00' is = some s ∧ s.takeWhile goesOn = v := by
  rwa [← findTiles_eq, Option.map_eq_some_iff] at hpair

theorem parseTiles_throws {e : Stop}
    (hreserve : reserve (reservedSize b.tilesetHeight b.tilesetWidth) = .error e) :
    parseTiles reserve b is = .error e := by
  obtain ⟨s, hfind, -⟩ := findTiles_pair hpair
  unfold parseTiles
  simp only [hfind, hreserve]

theorem parseTiles_some
    (hreserve : reserve (reservedSize b.tilesetHeight b.tilesetWidth) = .ok ()) :
    parseTiles reserve b is =
      .ok (if v.all isTileChar then (.success, { b with tiles := b.tiles ++ tilesOf v })
        else (.error, { b with tiles := [] })) := by
  obtain ⟨s, hfind, rfl⟩ := findTiles_pair hpair
  unfold parseTiles
  simp only [hfind, hreserve]
  rw [readTiles_eq]
  by_cases hall : (s.takeWhile goesOn).all isTileChar = true
  · rw [if_pos hall, if_pos hall]
  · rw [if_neg hall, if_neg hall]

end

/-! ## Which texts are read right -/

theorem isTileChar_goesOn {c : Char} (h : isTileChar c = true) : goesOn c = true := by
  simp only [isTileChar, decide_eq_true_eq] at h
  rcases h with rfl | rfl | rfl | rfl
  all_goals decide

theorem behindPair_append {u v : List Char} (h : behindPair u = some v) (w : List Char) :
    behindPair (u ++ w) = some (v ++ w) := by
  fun_induction behindPair u with
  | case1 => cases h
  | case2 c => cases h
  | case3 c d s hpair =>
    cases h
    exact if_pos hpair
  | case4 c d s hpair ih =>
    have hrest := ih h
    rwa [List.cons_append, List.cons_append, behindPair, if_neg hpair]

/-- With the pair in front of every NUL and 0xFF, a tiled text has none of these. -/
theorem tiled_pair (hpair : behindPair (is.takeWhile goesOn) = some v) :
    Tiled is tiles ↔
      (∀ c ∈ is, goesOn c = true) ∧ v.all isTileChar = true ∧ tiles = tilesOf v := by
  constructor
  · rintro ⟨s, hs, hall, rfl⟩
    have hsplit := behindPair_append hpair (is.dropWhile goesOn)
    rw [List.takeWhile_append_dropWhile, hs, Option.some_inj] at hsplit
    subst hsplit
    obtain ⟨-, hrest⟩ := List.forall_mem_append.1 (List.all_eq_true.1 hall)
    have hgoes : ∀ c ∈ is, goesOn c = true := by
      rw [← @List.takeWhile_append_dropWhile _ goesOn is, List.forall_mem_append]
      constructor
      · intro c hc
        exact List.mem_takeWhile_imp hc
      · intro c hc
        exact isTileChar_goesOn (hrest c hc)
    rw [List.takeWhile_eq_self_iff.2 hgoes, hs, Option.some_inj] at hpair
    rw [hpair] at hall ⊢
    exact ⟨hgoes, hall, rfl⟩
  · rintro ⟨hgoes, hall, rfl⟩
    rw [List.takeWhile_eq_self_iff.2 hgoes] at hpair
    exact ⟨v, hpair, hall, rfl⟩

/-! ## What each outcome has to mean -/

theorem Tiled.unique {tiles' : List Tile} (h : Tiled is tiles) (h' : Tiled is tiles') :
    tiles = tiles' := by
  obtain ⟨s, hs, -, rfl⟩ := h
  obtain ⟨s', hs', -, rfl⟩ := h'
  rw [hs, Option.some_inj] at hs'
  rw [hs']

theorem right_of_success (hparse : parseTiles reserve b is = .ok (.success, { b with tiles })) :
    ParsesRight reserve b is ↔ Tiled is tiles := by
  constructor
  · rintro ⟨htiled, hother⟩
    by_cases h : ∃ tiles', Tiled is tiles'
    · obtain ⟨tiles', h⟩ := h
      have hsuccess := htiled tiles' h
      rw [hparse] at hsuccess
      cases hsuccess
      exact h
    · have herror := hother (not_exists.1 h)
      rw [hparse] at herror
      cases herror
  · intro h
    constructor
    · intro tiles' h'
      rw [← h.unique h']
      exact hparse
    · intro hno
      exact absurd h (hno tiles)

theorem right_of_error (hparse : parseTiles reserve b is = .ok (.error, { b with tiles := [] })) :
    ParsesRight reserve b is ↔ ∀ tiles, ¬ Tiled is tiles := by
  constructor
  · rintro ⟨htiled, -⟩ tiles h
    have hsuccess := htiled tiles h
    rw [hparse] at hsuccess
    cases hsuccess
  · intro hno
    constructor
    · intro tiles h
      exact absurd h (hno tiles)
    · intro _
      exact hparse

theorem not_right_of_throws {e : Stop} (hparse : parseTiles reserve b is = .error e) :
    ¬ ParsesRight reserve b is := by
  rintro ⟨htiled, hother⟩
  by_cases h : ∃ tiles, Tiled is tiles
  · obtain ⟨tiles, h⟩ := h
    have hsuccess := htiled tiles h
    rw [hparse] at hsuccess
    cases hsuccess
  · have herror := hother (not_exists.1 h)
    rw [hparse] at herror
    cases herror

theorem parsesRight_none (hb : b.tiles = []) (hpair : behindPair (is.takeWhile goesOn) = none) :
    ParsesRight reserve b is ↔ ∀ tiles, ¬ Tiled is tiles := by
  apply right_of_error
  rw [parseTiles_none hpair, ← hb]

theorem parsesRight_some (hb : b.tiles = []) (hpair : behindPair (is.takeWhile goesOn) = some v) :
    ParsesRight reserve b is ↔ reserve (reservedSize b.tilesetHeight b.tilesetWidth) = .ok () ∧
      ((∀ c ∈ is, goesOn c = true) ∨ v.all isTileChar = false) := by
  cases hreserve : reserve (reservedSize b.tilesetHeight b.tilesetWidth) with
  | error e =>
    constructor
    · intro hright
      exact absurd hright (not_right_of_throws (parseTiles_throws hpair hreserve))
    · rintro ⟨hok, -⟩
      cases hok
  | ok _ =>
    have hparse := parseTiles_some hpair hreserve
    rw [hb, List.nil_append] at hparse
    by_cases hall : v.all isTileChar = true
    · rw [if_pos hall] at hparse
      rw [right_of_success hparse, tiled_pair hpair]
      constructor
      · rintro ⟨hgoes, -, -⟩
        exact ⟨rfl, .inl hgoes⟩
      · rintro ⟨-, hgoes | hno⟩
        · exact ⟨hgoes, hall, rfl⟩
        · rw [hall] at hno
          cases hno
    · rw [if_neg hall] at hparse
      rw [right_of_error hparse]
      constructor
      · intro _
        exact ⟨rfl, .inr (Bool.eq_false_iff.2 hall)⟩
      · intro _ tiles h
        exact hall ((tiled_pair hpair).1 h).2.1

/-- **`ParseTiles` does what its text asks for exactly if no NUL or 0xFF changes the outcome,
and there is room.** -/
theorem parsesRight_iff (hb : b.tiles = []) :
    ParsesRight reserve b is ↔
      (behindPair (is.takeWhile goesOn) ≠ none →
        reserve (reservedSize b.tilesetHeight b.tilesetWidth) = .ok ()) ∧ Unconfused is := by
  unfold Unconfused
  cases hpair : behindPair (is.takeWhile goesOn) with
  | none =>
    rw [parsesRight_none hb hpair]
    constructor
    · intro hno
      exact ⟨fun h => absurd rfl h, .inr (.inr ⟨rfl, hno⟩)⟩
    · rintro ⟨-, hgoes | ⟨v, hv, -⟩ | ⟨-, hno⟩⟩
      · rintro tiles ⟨s, hs, -⟩
        rw [List.takeWhile_eq_self_iff.2 hgoes, hs] at hpair
        cases hpair
      · cases hv
      · exact hno
  | some v =>
    rw [parsesRight_some hb hpair]
    constructor
    · rintro ⟨hreserve, hgoes | hno⟩
      · exact ⟨fun _ => hreserve, .inl hgoes⟩
      · exact ⟨fun _ => hreserve, .inr (.inl ⟨v, rfl, hno⟩)⟩
    · rintro ⟨hreserve, hgoes | ⟨v', hv', hno⟩ | ⟨hnone, -⟩⟩
      · exact ⟨hreserve (Option.some_ne_none v), .inl hgoes⟩
      · cases hv'
        exact ⟨hreserve (Option.some_ne_none v), .inr hno⟩
      · cases hnone

theorem parsesRight_iff_row : ParsesRight (fun _ => .ok ()) zeroBuilder "x\n\n# .\n#\n".toList :=
  (@parsesRight_iff (fun _ => .ok ()) zeroBuilder "x\n\n# .\n#\n".toList rfl).2
    ⟨fun _ => rfl, .inl (by decide)⟩

/-- A NUL behind the tiles is accepted, and tiles behind a byte 0xFF are not seen. -/
theorem not_parsesRight :
    ¬ ParsesRight (fun _ => .ok ()) zeroBuilder "\n\n#\x00?".toList ∧
    ¬ ParsesRight (fun _ => .ok ()) zeroBuilder "\xff\n\n#".toList := by
  constructor
  · rintro ⟨-, hother⟩
    have herror := hother (by
      rintro tiles ⟨s, hs, hall, -⟩
      cases hs
      exact absurd hall (by decide))
    exact absurd herror (by decide)
  · rintro ⟨htiled, -⟩
    have hsuccess := htiled [{ index := 1 }] ⟨['#'], rfl, by decide, by decide⟩
    exact absurd hsuccess (by decide)

end Gamejam
