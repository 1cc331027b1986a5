/-
Views: the listing, the census and the ownership map count alike.

Whether a cell is empty and whether it has an owner are different questions: a cell that an addition changed while nobody
owned it is neither empty nor owned. The listing and the number of empty cells ask the first question, the census and the
map the second, and the owner column of the listing answers it again. Every line comes from one cell and every glyph does,
so that each of these counts is a count of cells.

- `sum_tally`: the counts of a tally together; `mem_cellsOwned_iff`, `id_mem_cellsOwned_iff`, `sum_cellsOwned`: what the
  census says.
- `Core.marked`, `marked_owner`, `marked_unowned`: what the owner column of a line says.
- `Core.countP_lines`, `countP_glyphs`: counting lines, or glyphs, is counting cells.
- `Core.views_law`: the views agree.
-/
import CoreWar.OwnershipMap
import CoreWar.Proofs.Listing
import CoreWar.Proofs.Tallies

namespace CoreWar

/-! ## The census -/

theorem Tally.sum_add (id : ProgramId) (t : Tally) : ((Tally.add id t).map (·.2)).sum = (t.map (·.2)).sum + 1 := by
  cases t with
  | nil => rfl
  | cons entry rest =>
    obtain ⟨first, n⟩ := entry
    rw [Tally.add]
    split
    · simp only [List.map_cons, List.sum_cons]
      omega
    · simp only [List.map_cons, List.sum_cons]
      omega

theorem Tally.sum_foldr_add (ids : List ProgramId) : ((ids.foldr Tally.add []).map (·.2)).sum = ids.length := by
  induction ids with
  | nil => rfl
  | cons id ids ih => rw [List.foldr_cons, Tally.sum_add, ih, List.length_cons]

/-- the counts together are as many as the ids -/
theorem sum_tally (ids : List ProgramId) : ((tally ids).map (·.2)).sum = ids.length := by
  rw [tally, Tally.sum_foldr_add, List.length_mergeSort]

/-- the census knows the owners, and nobody else -/
theorem mem_cellsOwned_iff {cells : List Cell} {id n : Nat} :
    (id, n) ∈ cellsOwned cells ↔ 0 < n ∧ n = cells.countP (fun c => c.ownerProgram == some id) := by
  rw [cellsOwned, (tally_counts _).mem_iff, List.count_filterMap]

theorem id_mem_cellsOwned_iff {cells : List Cell} {id : ProgramId} :
    id ∈ (cellsOwned cells).map (·.1) ↔ ∃ c ∈ cells, c.ownerProgram = some id := by
  rw [cellsOwned, (tally_counts _).id_mem_iff, List.mem_filterMap]

theorem sum_cellsOwned (cells : List Cell) :
    ((cellsOwned cells).map (·.2)).sum = cells.countP fun c => c.ownerProgram.isSome := by
  rw [cellsOwned, sum_tally, List.length_filterMap_eq_countP]

/-! ## The owner column -/

theorem Cell.isEmpty_of_owned {c : Cell} (h : c.ownerProgram.isSome = true) : c.isEmpty = false := by
  rw [Bool.eq_false_iff, ne_eq, Cell.isEmpty_iff]
  rintro rfl
  cases h

namespace Core

/-- whether the owner column of a line starts with `mark` -/
def marked (mark : String) (line : List Char) : Bool := mark.toList.isPrefixOf (ownerColumn line)

/-- two dashes mark the lines of the cells without an owner -/
theorem marked_unowned (i : Nat) (c : Cell) : marked "--" (lineOf i c) = !c.ownerProgram.isSome := by
  rw [marked, ownerColumn_lineOf, Cell.ownerLabel, Cell.ownerProgram]
  cases c.owner with
  | none => rfl
  | some o =>
    rw [Option.elim_some, o.toList_label]
    rfl

/-- the id with a point behind it marks the lines of a program's cells -/
theorem marked_owner (id : ProgramId) (i : Nat) (c : Cell) :
    marked ("p" ++ toString id ++ ".") (lineOf i c) = (c.ownerProgram == some id) := by
  have hmark : ("p" ++ toString id ++ ".").toList = 'p' :: ((toString id).toList ++ ['.']) := by simp
  rw [marked, ownerColumn_lineOf, Cell.ownerLabel, Cell.ownerProgram, hmark]
  cases c.owner with
  | none => rfl
  | some o =>
    rw [Option.elim_some, o.toList_label, Bool.eq_iff_iff, List.isPrefixOf_iff_prefix, Option.map_some, beq_iff_eq,
      Option.some.injEq]
    constructor
    · rintro ⟨rest, hrest⟩
      simp only [List.cons_append, List.append_assoc, List.nil_append, List.cons.injEq, true_and] at hrest
      exact (digits_inj hrest).1.symm
    · rintro rfl
      simp only [List.cons_append, List.append_assoc, List.cons_prefix_cons, List.prefix_append_right_inj,
        List.nil_prefix, and_self]

/-! ## Lines and glyphs -/

/-- what can be told from a line can be counted among the cells -/
theorem countP_lines (core : Core) {p : List Char → Bool} {q : Cell → Bool} (h : ∀ i c, p (lineOf i c) = q c) :
    (linesOf core.listing).countP p = core.cells.toList.countP fun c => q c && !c.isEmpty := by
  have hfirst : core.cells.toList.zipIdx.map Prod.fst = core.cells.toList := List.zipIdx_map_fst 0 _
  rw [linesOf_listing, List.countP_map, entries, List.countP_filter]
  conv_rhs => rw [← hfirst, List.countP_map]
  congr 1
  funext entry
  simp only [Function.comp_apply, h]

end Core

namespace OwnershipMap

/-- the characters of a text other than blanks and ends of lines -/
def glyphsOf (text : String) : List Char := text.toList.filter fun ch => ch != ' ' && ch != '\n'

/-- how a cell is drawn without colour, less the blank -/
def glyphChar (c : Cell) : Char := c.ownerProgram.elim 'X' fun id => (id % 10).digitChar

theorem toString_digit : ∀ d < 10, (toString d).toList = [d.digitChar] := by decide

theorem digitChar_ne : ∀ d < 10, d.digitChar ≠ ' ' ∧ d.digitChar ≠ '\n' ∧ d.digitChar ≠ 'X' := by decide

theorem toList_glyph (c : Cell) : (glyph false c).toList = [glyphChar c, ' '] := by
  rw [glyph, glyphChar]
  cases c.ownerProgram with
  | none => rfl
  | some id =>
    have hlt : id % 10 < 10 := Nat.mod_lt id (by decide)
    change (toString (id % 10) ++ " ").toList = [(id % 10).digitChar, ' ']
    rw [String.toList_append, toString_digit _ hlt]
    rfl

/-- without colour the map shows one character for every cell -/
theorem glyphsOf_ownershipMap (width : Nat) (cells : List Cell) :
    glyphsOf (ownershipMap ⟨width, false⟩ cells) = cells.map glyphChar := by
  have hglyph (c : Cell) : glyphChar c ≠ ' ' ∧ glyphChar c ≠ '\n' := by
    rw [glyphChar]
    cases c.ownerProgram with
    | none => decide
    | some id =>
      obtain ⟨hblank, hnewline, -⟩ := digitChar_ne (id % 10) (Nat.mod_lt id (by decide))
      exact ⟨hblank, hnewline⟩
  have hplace (i : Nat) (c : Cell) :
      (place ⟨width, false⟩ cells.length i c).toList.filter (fun ch => ch != ' ' && ch != '\n') = [glyphChar c] := by
    rw [place]
    split
    · simp [toList_glyph, hglyph c]
    · simp [toList_glyph, hglyph c]
  rw [glyphsOf, ownershipMap, String.toList_join, List.flatMap_map, List.filter_flatMap]
  simp only [hplace]
  rw [← List.map_eq_flatMap]
  conv_rhs => rw [← List.zipIdx_map_fst 0 cells, List.map_map]
  rfl

/-- every owned cell shows a digit -/
theorem countP_glyphs (width : Nat) (cells : List Cell) :
    (glyphsOf (ownershipMap ⟨width, false⟩ cells)).countP (· != 'X') = cells.countP fun c => c.ownerProgram.isSome := by
  rw [glyphsOf_ownershipMap, List.countP_map]
  congr 1
  funext c
  rw [Function.comp_apply, glyphChar]
  cases c.ownerProgram with
  | none => rfl
  | some id => exact bne_iff_ne.2 (digitChar_ne (id % 10) (Nat.mod_lt id (by decide))).2.2

end OwnershipMap

/-! ## Main result -/

/-- whoever owns a cell has it on a line -/
theorem Core.countP_owned_lines (core : Core) {p : List Char → Bool} {q : Cell → Bool}
    (h : ∀ i c, p (lineOf i c) = q c) (howned : ∀ c, q c = true → c.ownerProgram.isSome = true) :
    (linesOf core.listing).countP p = core.cells.toList.countP q := by
  rw [core.countP_lines h]
  congr 1
  funext c
  cases hq : q c with
  | false => rfl
  | true => rw [Cell.isEmpty_of_owned (howned c hq), Bool.not_false, Bool.and_self]

/-- a cell is empty or has a line -/
theorem Core.length_lines (core : Core) :
    (linesOf core.listing).length + emptyCells core.cells.toList = core.cells.toList.length := by
  have hlines := core.countP_lines (p := fun _ => true) (q := fun _ => true) fun _ _ => rfl
  simp only [List.countP_true, Bool.true_and] at hlines
  rw [hlines, emptyCells, List.length_eq_countP_add_countP Cell.isEmpty, Nat.add_comm]
  simp only [Bool.not_eq_true, Bool.decide_eq_false]

/-- **The views agree.** Take any core.
- The lines of its listing and the empty cells together are as many as the cells; so the occupancy is the share of the
  lines, and the empty cells are never more than the cells.
- The census lists, each once and in ascending order, the programs that own a cell, with the positive number of their
  cells; a program owns as many cells as there are lines whose owner column starts with its mark.
- The total of the census is the number of lines that are not marked as unowned. It is also the number of glyphs other
  than `X` in the map without colour, for every width; the glyphs are as many as the cells. -/
theorem Core.views_law (core : Core) :
    let cells := core.cells.toList
    let lines := linesOf core.listing
    let total := ((cellsOwned cells).map (·.2)).sum
    (lines.length + emptyCells cells = cells.length ∧
      occupancy cells = if cells.isEmpty then 0 else Float.ofNat lines.length / Float.ofNat cells.length) ∧
    (((cellsOwned cells).map (·.1)).Pairwise (· < ·) ∧
      (∀ id, id ∈ (cellsOwned cells).map (·.1) ↔ ∃ c ∈ cells, c.ownerProgram = some id) ∧
      (∀ id n, (id, n) ∈ cellsOwned cells ↔ 0 < n ∧ n = cells.countP (fun c => c.ownerProgram == some id)) ∧
      ∀ id, lines.countP (marked ("p" ++ toString id ++ ".")) = cells.countP fun c => c.ownerProgram == some id) ∧
    (total = lines.countP (fun line => !marked "--" line) ∧
      ∀ width, total = (OwnershipMap.glyphsOf (ownershipMap ⟨width, false⟩ cells)).countP (· != 'X') ∧
        (OwnershipMap.glyphsOf (ownershipMap ⟨width, false⟩ cells)).length = cells.length) := by
  intro cells lines total
  have hcells : lines.length + emptyCells cells = cells.length := core.length_lines
  have htotal : total = cells.countP fun c => c.ownerProgram.isSome := sum_cellsOwned cells
  refine ⟨⟨hcells, ?_⟩, ⟨?_, fun id => id_mem_cellsOwned_iff, fun id n => mem_cellsOwned_iff, ?_⟩, ?_, ?_⟩
  · have hnumerator : cells.length - emptyCells cells = lines.length := by omega
    rw [occupancy, hnumerator]
  · exact List.pairwise_map.2 (tally_counts _).ascending
  · intro id
    apply core.countP_owned_lines (marked_owner id)
    intro c hc
    rw [beq_iff_eq.1 hc]
    rfl
  · rw [htotal]
    refine (core.countP_owned_lines ?_ fun _ howned => howned).symm
    intro i c
    rw [marked_unowned, Bool.not_not]
  · intro width
    refine ⟨?_, ?_⟩
    · rw [htotal, OwnershipMap.countP_glyphs]
    · rw [OwnershipMap.glyphsOf_ownershipMap, List.length_map]

end CoreWar
