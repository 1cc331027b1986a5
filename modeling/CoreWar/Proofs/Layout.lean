/-
Layout: where the ownership map shows a cell.

The map is written cell by cell, with an end of line behind a cell if its number completes a row or if it is the last.
So the text falls into rows, and a row into glyphs: a coloured glyph begins with an escape character and no other does,
and each kind has its own length. Read in this way the map is the list of the glyphs, cut into rows of the given width.
What is seen of a cell is its owner's id modulo the number of digits, or of colours.

- `inRows`: a list in rows; `length_inRows`, `row_inRows`, `flatten_inRows`, `getElem?_inRows`: how many rows there are,
  how long they are, and which element is where.
- `OwnershipMap.readGlyphs`, `OwnershipMap.rowsOf`: a row read glyph by glyph, a map read row by row.
- `OwnershipMap.toList_ownershipMap`, `OwnershipMap.rowsOf_ownershipMap`: the map is the glyphs of its cells in rows,
  and is read back as these.
- `OwnershipMap.glyph_eq_iff`: which cells look alike.
- `OwnershipMap.layout_law`: the layout of the map.
-/
import Mathlib.Data.List.Forall2
import Mathlib.Data.Nat.ModEq
import CoreWar.Proofs.Views

namespace CoreWar

/-! ## Rows -/

section

variable {α : Type}

/-- a list cut into rows of `w`; a width of zero counts as one -/
def inRows (w : Nat) : List α → List (List α)
  | [] => []
  | x :: xs => (x :: xs.take (w - 1)) :: inRows w (xs.drop (w - 1))
termination_by xs => xs.length
decreasing_by
  rw [List.length_drop, List.length_cons]
  omega

theorem flatten_inRows (w : Nat) (xs : List α) : (inRows w xs).flatten = xs := by
  fun_induction inRows w xs with
  | case1 => rfl
  | case2 x xs ih => rw [List.flatten_cons, ih, List.cons_append, List.take_append_drop]

variable {w : Nat} (hw : 0 < w)
include hw

/-- as many rows as it takes -/
theorem length_inRows (xs : List α) : (inRows w xs).length = (xs.length + w - 1) / w := by
  fun_induction inRows w xs with
  | case1 => exact (Nat.div_eq_of_lt (by simpa using hw)).symm
  | case2 x xs ih =>
    rw [List.length_cons, ih, List.length_drop, List.length_cons, show xs.length + 1 + w - 1 = xs.length + w by omega,
      Nat.add_div_right _ hw]
    by_cases hlast : xs.length < w
    · rw [Nat.div_eq_of_lt hlast, Nat.div_eq_of_lt (by omega)]
    · rw [show xs.length - (w - 1) + w - 1 = xs.length by omega]

/-- no row is empty or too long, and only the last one can be short -/
theorem row_inRows (xs : List α) {r : Nat} {row : List α} (hrow : (inRows w xs)[r]? = some row) :
    1 ≤ row.length ∧ row.length ≤ w ∧ (r + 1 < (inRows w xs).length → row.length = w) := by
  fun_induction inRows w xs generalizing r with
  | case1 => cases hrow
  | case2 x xs ih =>
    rw [List.length_cons]
    cases r with
    | zero =>
      obtain rfl : x :: xs.take (w - 1) = row := Option.some.inj hrow
      rw [List.length_cons, List.length_take]
      refine ⟨by omega, by omega, ?_⟩
      intro hmore
      rw [length_inRows hw, List.length_drop, Nat.add_lt_add_iff_right, Nat.div_pos_iff] at hmore
      omega
    | succ r =>
      obtain ⟨hpos, hle, hfull⟩ := ih hrow
      exact ⟨hpos, hle, fun hmore => hfull (by omega)⟩

/-- element `i` stands in row `i / w`, at place `i % w` -/
theorem getElem?_inRows (xs : List α) (i : Nat) : (inRows w xs)[i / w]?.bind (·[i % w]?) = xs[i]? := by
  fun_induction inRows w xs generalizing i with
  | case1 => rfl
  | case2 x xs ih =>
    by_cases hfirst : i < w
    · rw [Nat.div_eq_of_lt hfirst, Nat.mod_eq_of_lt hfirst, List.getElem?_cons_zero, Option.bind_some]
      cases i with
      | zero => rfl
      | succ i => rw [List.getElem?_cons_succ, List.getElem?_cons_succ, List.getElem?_take_of_lt (by omega)]
    · obtain ⟨j, rfl⟩ := Nat.exists_eq_add_of_le' (Nat.le_of_not_lt hfirst)
      rw [Nat.add_div_right _ hw, Nat.add_mod_right, List.getElem?_cons_succ, ih, List.getElem?_drop,
        show j + w = w - 1 + j + 1 by omega, List.getElem?_cons_succ]

end

namespace OwnershipMap

/-! ## Reading a map -/

/-- how many characters follow the first one of a glyph: an escape character begins the coloured block of a glyph, and
any other character has only a blank behind it -/
def following (first : Char) : Nat := if first = '\x1b' then 10 else 1

/-- a row cut into its glyphs -/
def readGlyphs : List Char → List (List Char)
  | [] => []
  | first :: rest => (first :: rest.take (following first)) :: readGlyphs (rest.drop (following first))
termination_by row => row.length
decreasing_by
  rw [List.length_drop, List.length_cons]
  omega

/-- the glyphs of a map, row by row -/
def rowsOf (text : String) : List (List (List Char)) := (linesOf text).map readGlyphs

/-- a first character, as many others as follow it, and no end of line among them -/
structure IsGlyph (g : List Char) : Prop where
  shape : ∃ first rest, g = first :: rest ∧ rest.length = following first
  newline_not_mem : '\n' ∉ g

/-- glyphs are read back one by one, wherever they came from -/
theorem readGlyphs_flatten {glyphs : List (List Char)} (h : ∀ g ∈ glyphs, IsGlyph g) :
    readGlyphs glyphs.flatten = glyphs := by
  induction glyphs with
  | nil => rw [List.flatten_nil, readGlyphs]
  | cons g glyphs ih =>
    obtain ⟨hg, hglyphs⟩ := List.forall_mem_cons.1 h
    obtain ⟨first, rest, rfl, hlength⟩ := hg.shape
    rw [List.flatten_cons, List.cons_append, readGlyphs, ← hlength, List.take_left, List.drop_left, ih hglyphs]

theorem newline_not_mem_flatten {row : List (List Char)} (h : ∀ g ∈ row, IsGlyph g) : '\n' ∉ row.flatten := by
  rw [List.mem_flatten]
  rintro ⟨g, hg, hnewline⟩
  exact (h g hg).newline_not_mem hnewline

/-- a text that was put together from rows of glyphs has these rows -/
theorem rowsOf_join {rows : List (List (List Char))} (h : ∀ row ∈ rows, ∀ g ∈ row, IsGlyph g) {text : String}
    (htext : text.toList = rows.flatMap fun row => row.flatten ++ ['\n']) : rowsOf text = rows := by
  have hlines : linesOf text = rows.map List.flatten := by
    apply linesOf_join
    · intro line hline
      obtain ⟨row, hrow, rfl⟩ := List.mem_map.1 hline
      exact newline_not_mem_flatten (h row hrow)
    · rw [htext, List.flatMap_map]
  rw [rowsOf, hlines, List.map_map]
  exact (List.map_congr_left fun row hrow => readGlyphs_flatten (h row hrow)).trans (List.map_id _)

/-! ## Glyphs -/

/-- how many glyphs there are for cells with an owner: as many as digits, or as colours -/
def shades (color : Bool) : Nat := if color then 4 else 10

/-- what a glyph shows of the owner -/
def shown (color : Bool) (c : Cell) : Option Nat := c.ownerProgram.map (· % shades color)

/-- the digit that tells one background from the others -/
def hue : Nat → Char
  | 0 => '1'
  | 1 => '4'
  | 2 => '3'
  | _ => '2'

/-- how that is drawn -/
def drawn (color : Bool) : Option Nat → List Char
  | none => ['X', ' ']
  | some shade =>
    if color then ['\x1b', '[', '4', hue shade, 'm', ' ', '\x1b', '[', '0', 'm', ' '] else [shade.digitChar, ' ']

theorem toList_background (id : ProgramId) : (background id).toList = ['\x1b', '[', '4', hue (id % 4), 'm'] := by
  have hlt : id % 4 < 4 := Nat.mod_lt id (by decide)
  rw [background]
  generalize id % 4 = shade at hlt
  revert shade
  decide

theorem toList_glyph_eq (color : Bool) (c : Cell) : (glyph color c).toList = drawn color (shown color c) := by
  cases color with
  | false =>
    rw [toList_glyph, glyphChar, shown]
    cases c.ownerProgram <;> rfl
  | true =>
    rw [glyph, shown]
    cases c.ownerProgram with
    | none => rfl
    | some id =>
      change (background id ++ " " ++ plain ++ " ").toList = _
      simp only [String.toList_append, toList_background]
      rfl

theorem following_digitChar : ∀ d < 10, following d.digitChar = 1 := by decide

theorem digitChar_inj : ∀ d < 10, ∀ d' < 10, d.digitChar = d'.digitChar → d = d' := by decide

theorem hue_inj : ∀ shade < 4, ∀ shade' < 4, hue shade = hue shade' → shade = shade' := by decide

theorem hue_ne_newline : ∀ shade < 4, hue shade ≠ '\n' := by decide

theorem lt_shades_of_mem_shown {color : Bool} {c : Cell} : ∀ shade ∈ shown color c, shade < shades color := by
  intro shade hshade
  obtain ⟨id, -, rfl⟩ := Option.map_eq_some_iff.1 hshade
  apply Nat.mod_lt
  cases color <;> decide

theorem isGlyph_glyph (color : Bool) (c : Cell) : IsGlyph (glyph color c).toList := by
  rw [toList_glyph_eq]
  cases hshown : shown color c with
  | none => exact ⟨⟨'X', [' '], rfl, rfl⟩, by simp [drawn]⟩
  | some shade =>
    have hlt := lt_shades_of_mem_shown shade hshown
    cases color with
    | false =>
      have hnewline := (digitChar_ne shade hlt).2.1
      exact ⟨⟨shade.digitChar, [' '], rfl, (following_digitChar shade hlt).symm⟩, by simp [drawn, hnewline.symm]⟩
    | true =>
      have hnewline := hue_ne_newline shade hlt
      exact ⟨⟨'\x1b', _, rfl, rfl⟩, by simp [drawn, hnewline.symm]⟩

/-- an owned cell does not look as if nobody owned it -/
theorem drawn_some_ne {color : Bool} {shade : Nat} (hlt : shade < shades color) :
    drawn color (some shade) ≠ drawn color none := by
  intro h
  cases color with
  | false => exact (digitChar_ne shade hlt).2.2 (List.head_eq_of_cons_eq h)
  | true => exact absurd (List.head_eq_of_cons_eq h) (by decide)

theorem drawn_some_inj {color : Bool} {shade shade' : Nat} (hlt : shade < shades color) (hlt' : shade' < shades color)
    (h : drawn color (some shade) = drawn color (some shade')) : shade = shade' := by
  cases color with
  | false => exact digitChar_inj shade hlt shade' hlt' (List.head_eq_of_cons_eq h)
  | true =>
    have hhue : hue shade = hue shade' := by simpa [drawn] using h
    exact hue_inj shade hlt shade' hlt' hhue

/-- what a glyph shows can be told from it -/
theorem shown_eq_of_drawn {color : Bool} {c d : Cell} (h : drawn color (shown color c) = drawn color (shown color d)) :
    shown color c = shown color d := by
  cases hc : shown color c with
  | none =>
    cases hd : shown color d with
    | none => rfl
    | some shade' =>
      rw [hc, hd] at h
      exact absurd h.symm (drawn_some_ne (lt_shades_of_mem_shown shade' hd))
  | some shade =>
    have hlt := lt_shades_of_mem_shown shade hc
    cases hd : shown color d with
    | none =>
      rw [hc, hd] at h
      exact absurd h (drawn_some_ne hlt)
    | some shade' =>
      rw [hc, hd] at h
      rw [drawn_some_inj hlt (lt_shades_of_mem_shown shade' hd) h]

/-- two cells look alike if nobody owns them, or if their owners' ids have the same last digit, or the same colour -/
theorem glyph_eq_iff {color : Bool} {c d : Cell} :
    glyph color c = glyph color d ↔ Option.Rel (· ≡ · [MOD shades color]) c.ownerProgram d.ownerProgram := by
  have hshown : glyph color c = glyph color d ↔ shown color c = shown color d := by
    rw [← String.toList_inj, toList_glyph_eq, toList_glyph_eq]
    exact ⟨shown_eq_of_drawn, congrArg (drawn color)⟩
  rw [hshown, shown, shown]
  cases c.ownerProgram with
  | none => cases d.ownerProgram <;> simp
  | some id => cases d.ownerProgram <;> simp [Nat.ModEq]

/-! ## The map -/

/-- the end of line behind glyph `i` of `count`, if there is one -/
def lineEnd (w count i : Nat) : List Char := if (i + 1) % w = 0 ∨ i + 1 = count then ['\n'] else []

theorem toList_place (style : Style) (count i : Nat) (c : Cell) :
    (place style count i c).toList = (glyph style.color c).toList ++ lineEnd style.columns count i := by
  rw [place, lineEnd]
  split
  · rw [String.toList_append]
    rfl
  · rw [List.append_nil]

/-- a row whose last glyph is the only one with an end of line behind it -/
theorem flatMap_row {w count k : Nat} {row : List (List Char)} (hrow : row ≠ [])
    (hinner : ∀ i, k ≤ i → i + 1 < k + row.length → lineEnd w count i = [])
    (hlast : ∀ i, i + 1 = k + row.length → lineEnd w count i = ['\n']) :
    ((row.zipIdx k).flatMap fun entry => entry.1 ++ lineEnd w count entry.2) = row.flatten ++ ['\n'] := by
  induction row generalizing k with
  | nil => exact absurd rfl hrow
  | cons g row ih =>
    rw [List.zipIdx_cons, List.flatMap_cons, List.flatten_cons]
    simp only [List.length_cons] at hinner hlast
    cases row with
    | nil =>
      rw [hlast k rfl]
      simp
    | cons g' row =>
      rw [hinner k le_rfl (by simp), List.append_nil, List.append_assoc, ih (List.cons_ne_nil g' row)]
      · intro i hi hlt
        exact hinner i (by omega) (by omega)
      · intro i hi
        exact hlast i (by omega)

/-- counted from a multiple of the width, the end of a full row has an end of line, and so has the last glyph of all -/
theorem flatMap_first_row {w count q : Nat} {row : List (List Char)} (hrow : row ≠ []) (hle : row.length ≤ w)
    (hwithin : w * q + row.length ≤ count) (hend : row.length = w ∨ w * q + row.length = count) :
    ((row.zipIdx (w * q)).flatMap fun entry => entry.1 ++ lineEnd w count entry.2) = row.flatten ++ ['\n'] := by
  apply flatMap_row hrow
  · intro i hi hlt
    obtain ⟨j, rfl⟩ := Nat.exists_eq_add_of_le hi
    have hmod : (w * q + j + 1) % w = j + 1 := by rw [Nat.add_assoc, Nat.mul_add_mod, Nat.mod_eq_of_lt (by omega)]
    rw [lineEnd, hmod, if_neg (by omega)]
  · intro i hi
    rw [lineEnd, hi, if_pos]
    rcases hend with hfull | hlast
    · left
      rw [hfull, Nat.mul_add_mod, Nat.mod_self]
    · right
      exact hlast

/-- **Rows.** The ends of lines cut the glyphs into rows, counted from any number that begins a row. -/
theorem flatMap_rows {w : Nat} (hw : 0 < w) {count k : Nat} {glyphs : List (List Char)}
    (hstart : glyphs ≠ [] → w ∣ k) (hcount : glyphs ≠ [] → k + glyphs.length = count) :
    ((glyphs.zipIdx k).flatMap fun entry => entry.1 ++ lineEnd w count entry.2) =
      (inRows w glyphs).flatMap fun row => row.flatten ++ ['\n'] := by
  fun_induction inRows w glyphs generalizing k with
  | case1 => rfl
  | case2 g glyphs ih =>
    obtain ⟨q, rfl⟩ := hstart (List.cons_ne_nil g glyphs)
    replace hcount := hcount (List.cons_ne_nil g glyphs)
    rw [List.length_cons] at hcount
    have hsplit : g :: glyphs = (g :: glyphs.take (w - 1)) ++ glyphs.drop (w - 1) := by
      rw [List.cons_append, List.take_append_drop]
    have hlength : (g :: glyphs.take (w - 1)).length = min (w - 1) glyphs.length + 1 := by
      rw [List.length_cons, List.length_take]
    -- where glyphs are left over the first row is full, so that they begin at the next multiple of the width
    have hmore : glyphs.drop (w - 1) ≠ [] → w - 1 < glyphs.length := by
      rw [ne_eq, List.drop_eq_nil_iff, Nat.not_le]
      exact id
    rw [hsplit, List.zipIdx_append, List.flatMap_append, List.flatMap_cons, hlength,
      flatMap_first_row (List.cons_ne_nil _ _) (by omega) (by omega) (by omega), ih]
    · intro hne
      have hlt := hmore hne
      rw [show w * q + (min (w - 1) glyphs.length + 1) = w * q + w by omega]
      exact Nat.dvd_add (Nat.dvd_mul_right w q) (Nat.dvd_refl w)
    · intro hne
      have hlt := hmore hne
      rw [List.length_drop]
      omega

/-- the glyphs of a list of cells -/
def glyphs (color : Bool) (cells : List Cell) : List (List Char) := cells.map fun c => (glyph color c).toList

theorem isGlyph_of_mem_rows {w : Nat} {color : Bool} {cells : List Cell} :
    ∀ row ∈ inRows w (glyphs color cells), ∀ g ∈ row, IsGlyph g := by
  intro row hrow g hg
  have hmem : g ∈ (inRows w (glyphs color cells)).flatten := List.mem_flatten_of_mem hrow hg
  rw [flatten_inRows, glyphs] at hmem
  obtain ⟨c, -, rfl⟩ := List.mem_map.1 hmem
  exact isGlyph_glyph color c

theorem columns_pos (style : Style) : 0 < style.columns := Nat.le_max_right style.width 1

/-- a map is the glyphs of its cells in rows, each with an end of line -/
theorem toList_ownershipMap (style : Style) (cells : List Cell) :
    (ownershipMap style cells).toList =
      (inRows style.columns (glyphs style.color cells)).flatMap fun row => row.flatten ++ ['\n'] := by
  rw [← flatMap_rows (columns_pos style) (fun _ => Nat.dvd_zero _) (fun _ => Nat.zero_add _), glyphs, List.zipIdx_map,
    List.flatMap_map, List.length_map, ownershipMap, String.toList_join, List.flatMap_map]
  simp only [toList_place, Prod.map, id_eq]

/-- **Reading.** A map is read back as the glyphs of its cells in rows. -/
theorem rowsOf_ownershipMap (style : Style) (cells : List Cell) :
    rowsOf (ownershipMap style cells) = inRows style.columns (glyphs style.color cells) :=
  rowsOf_join isGlyph_of_mem_rows (toList_ownershipMap style cells)

/-- without the ends of lines nothing is left but the glyphs -/
theorem filter_ownershipMap (style : Style) (cells : List Cell) :
    (ownershipMap style cells).toList.filter (· != '\n') = (glyphs style.color cells).flatten := by
  have hrow : ∀ row ∈ inRows style.columns (glyphs style.color cells),
      (row.flatten ++ ['\n']).filter (· != '\n') = row.flatten := by
    intro row hrow
    have hkept : row.flatten.filter (· != '\n') = row.flatten := by
      rw [List.filter_eq_self]
      intro ch hch
      rw [bne_iff_ne]
      rintro rfl
      exact newline_not_mem_flatten (isGlyph_of_mem_rows row hrow) hch
    rw [List.filter_append, hkept]
    exact List.append_nil _
  rw [toList_ownershipMap, List.filter_flatMap, List.flatMap_def, List.map_congr_left hrow, ← List.flatten_flatten,
    flatten_inRows]

/-- two maps of one style are equal iff their glyphs are -/
theorem ownershipMap_eq_iff {style : Style} {cells cells' : List Cell} :
    ownershipMap style cells = ownershipMap style cells' ↔ glyphs style.color cells = glyphs style.color cells' := by
  constructor
  · intro h
    have hrows := congrArg (fun text => (rowsOf text).flatten) h
    simpa only [rowsOf_ownershipMap, flatten_inRows] using hrows
  · intro h
    rw [← String.toList_inj, toList_ownershipMap, toList_ownershipMap, h]

/-- **The layout law.** Take any cells, any width, of which zero counts as one, and either style.
- The map consists of rows with an end of line behind each, as many as the cells take. Every row but the last is full,
  and the last holds at least one glyph.
- Read glyph by glyph and row by row, the map shows the glyph of every cell, in order: that of cell `i` in row `i / w`
  at place `i % w`, and nothing at any other place.
- Without its ends of lines the map is the same for every width.
- Two lists of cells have the same map iff they are equally long and, cell by cell, either nobody owns the two cells or
  the ids of their owners are equal modulo ten; modulo four with colour. -/
theorem layout_law (width : Nat) (color : Bool) (cells : List Cell) :
    let w := max width 1
    let text := ownershipMap ⟨width, color⟩ cells
    let rows := rowsOf text
    (text.toList = rows.flatMap (fun row => row.flatten ++ ['\n']) ∧ rows.length = (cells.length + w - 1) / w ∧
      ∀ r row, rows[r]? = some row → 1 ≤ row.length ∧ row.length ≤ w ∧ (r + 1 < rows.length → row.length = w)) ∧
    (rows.flatten = cells.map (fun c => (glyph color c).toList) ∧
      ∀ i, rows[i / w]?.bind (·[i % w]?) = cells[i]?.map fun c => (glyph color c).toList) ∧
    (∀ width', (ownershipMap ⟨width', color⟩ cells).toList.filter (· != '\n') = text.toList.filter (· != '\n')) ∧
    ∀ cells', ownershipMap ⟨width, color⟩ cells' = text ↔
      List.Forall₂ (fun c' c => Option.Rel (· ≡ · [MOD if color then 4 else 10]) c'.ownerProgram c.ownerProgram)
        cells' cells := by
  intro w text rows
  have hw : 0 < w := Nat.le_max_right width 1
  have hrows : rows = inRows w (glyphs color cells) := rowsOf_ownershipMap ⟨width, color⟩ cells
  have hlength : (glyphs color cells).length = cells.length := List.length_map _
  refine ⟨⟨?_, ?_, ?_⟩, ⟨?_, ?_⟩, ?_, ?_⟩
  · rw [hrows]
    exact toList_ownershipMap ⟨width, color⟩ cells
  · rw [hrows, length_inRows hw, hlength]
  · intro r row hrow
    rw [hrows] at hrow ⊢
    exact row_inRows hw _ hrow
  · rw [hrows, flatten_inRows, glyphs]
  · intro i
    rw [hrows, getElem?_inRows hw, glyphs, List.getElem?_map]
  · intro width'
    rw [filter_ownershipMap, filter_ownershipMap]
  · intro cells'
    rw [ownershipMap_eq_iff, glyphs, glyphs, ← List.forall₂_eq_eq_eq, List.forall₂_map_left_iff,
      List.forall₂_map_right_iff]
    simp only [String.toList_inj, glyph_eq_iff, shades]

example :
    let owned (id : ProgramId) : Cell := Cell.empty.ownedBy id 0
    ownershipMap ⟨2, false⟩ [Cell.empty, owned 0, owned 1, Cell.empty, owned 12] = "X 0 \n1 X \n2 \n" := by
  decide

end OwnershipMap

end CoreWar
