/-
Listings: a core is known by its listing and its size.

The listing leaves out empty cells, and of a cell the B operand if it carries nothing; places and owners are padded but
not cut. All the same nothing is lost. The text falls into lines, and each part of a line ends at a character that it
cannot contain: the place at the colon, the owner at a blank, the opcode at the next one, the A operand at a comma or at
the end of the line. An empty cell is a place without a line.

- `Cell.text_inj`, `Owner.label_inj`: the written forms of cells and owners are unambiguous.
- `Core.lineOf`, `Core.ownerColumn`: a line, and what stands behind its place; `lineOf_inj`: what a line shows.
- `Core.entries`, `linesOf_listing`: the cells that are not empty, and the lines of the listing as theirs.
- `listing_law`: cores of one size with one listing are the same.
-/
import Mathlib
import CoreWar.Proofs.Lines

namespace CoreWar

/-! ## The written form of a cell -/

theorem Opcode.mnemonic_inj {op op' : Opcode} (h : op.mnemonic.toList = op'.mnemonic.toList) : op = op' := by
  cases op <;> cases op' <;> first | rfl | exact absurd h (by decide)

theorem Opcode.isAlpha_of_mem_mnemonic {op : Opcode} {ch : Char} (h : ch ∈ op.mnemonic.toList) : ch.isAlpha = true := by
  have hall : op.mnemonic.toList.all Char.isAlpha = true := by cases op <;> decide
  exact List.all_eq_true.1 hall ch h

theorem Mode.sigil_inj {mode mode' : Option Mode} (h : mode.elim '?' Mode.sigil = mode'.elim '?' Mode.sigil) :
    mode = mode' := by
  rcases mode with _ | _ | _ | _ | _ <;> rcases mode' with _ | _ | _ | _ | _ <;>
    first | rfl | exact absurd h (by decide)

/-- whatever the mode, its sigil is none of the characters that end a part of a line -/
theorem Mode.sigil_ne (mode : Option Mode) : mode.elim '?' Mode.sigil ≠ ',' ∧ mode.elim '?' Mode.sigil ≠ '\n' := by
  rcases mode with _ | _ | _ | _ | _ <;> decide

theorem Operand.toList_text (o : Operand) : o.text.toList = o.sigil :: (toString o.field.toInt).toList := by
  rw [Operand.text, String.toList_append, Char.toString_eq_singleton, String.toList_singleton, List.singleton_append]

theorem Operand.text_inj {o o' : Operand} (h : o.text.toList = o'.text.toList) : o = o' := by
  rw [o.toList_text, o'.toList_text, List.cons.injEq, String.toList_inj, Int.toString_eq_repr, Int.toString_eq_repr,
    Int.repr_inj, Int64.toInt_inj] at h
  obtain ⟨hsigil, hfield⟩ := h
  obtain ⟨field, mode⟩ := o
  obtain ⟨field', mode'⟩ := o'
  rw [Operand.mk.injEq]
  exact ⟨hfield, Mode.sigil_inj hsigil⟩

theorem Operand.of_mem_text {o : Operand} {ch : Char} (h : ch ∈ o.text.toList) : ch ≠ ',' ∧ ch ≠ '\n' := by
  rw [o.toList_text, List.mem_cons] at h
  rcases h with rfl | hfield
  · exact Mode.sigil_ne o.mode
  · rcases of_mem_toString_int hfield with rfl | hdigit
    · decide
    · exact ⟨ne_stop (by decide) hdigit, ne_stop (by decide) hdigit⟩

/-- an operand that carries nothing is the one that a cell has if it was never given any -/
theorem Operand.isBlank_iff {o : Operand} : o.isBlank = true ↔ o = {} := by
  cases o with
  | mk field mode => cases mode <;> simp [Operand.isBlank]

/-- what the written form of a cell has behind the A operand -/
def Cell.tail (c : Cell) : List Char := if c.b.isBlank then [] else ',' :: ' ' :: c.b.text.toList

theorem Cell.tail_inj {c c' : Cell} (h : c.tail = c'.tail) : c.b = c'.b := by
  unfold Cell.tail at h
  split at h
  · rename_i hblank
    split at h
    · rename_i hblank'
      rw [Operand.isBlank_iff.1 hblank, Operand.isBlank_iff.1 hblank']
    · cases h
  · split at h
    · cases h
    · exact Operand.text_inj (List.cons.inj (List.cons.inj h).2).2

theorem Cell.toList_text (c : Cell) :
    c.text.toList = c.op.mnemonic.toList ++ ' ' :: (c.a.text.toList ++ c.tail) := by
  rw [Cell.text, Cell.tail]
  split <;> simp

theorem Cell.tail_cases (c : Cell) : c.tail = [] ∨ ∃ rest, c.tail = ',' :: rest := by
  unfold Cell.tail
  split
  · exact Or.inl rfl
  · exact Or.inr ⟨_, rfl⟩

/-- the A operand ends at the comma, or at the end of the line -/
theorem Cell.takeWhile_operands (c : Cell) : (c.a.text.toList ++ c.tail).takeWhile (· != ',') = c.a.text.toList := by
  have hpart : ∀ ch ∈ c.a.text.toList, (ch != ',') = true := fun ch hch => bne_iff_ne.2 (Operand.of_mem_text hch).1
  rcases c.tail_cases with htail | ⟨rest, htail⟩
  · rw [htail, List.append_nil]
    exact List.takeWhile_eq_self_iff.2 hpart
  · rw [htail, takeWhile_of_stop hpart (by decide)]

/-- **The written form of a cell** shows all but its owner. -/
theorem Cell.text_inj {c c' : Cell} (h : c.text.toList = c'.text.toList) : c.op = c'.op ∧ c.a = c'.a ∧ c.b = c'.b := by
  have hmnemonic : ∀ op : Opcode, ∀ ch ∈ op.mnemonic.toList, (ch != ' ') = true := fun op ch hch =>
    bne_iff_ne.2 (ne_stop (by decide) (Opcode.isAlpha_of_mem_mnemonic hch))
  rw [c.toList_text, c'.toList_text] at h
  have hop := congrArg (List.takeWhile (· != ' ')) h
  rw [takeWhile_of_stop (hmnemonic c.op) (by decide), takeWhile_of_stop (hmnemonic c'.op) (by decide)] at hop
  rw [hop] at h
  have hoperands := (List.cons.inj (List.append_cancel_left h)).2
  have ha := congrArg (List.takeWhile (· != ',')) hoperands
  rw [c.takeWhile_operands, c'.takeWhile_operands] at ha
  rw [ha] at hoperands
  exact ⟨Opcode.mnemonic_inj hop, Operand.text_inj ha, Cell.tail_inj (List.append_cancel_left hoperands)⟩

theorem Cell.newline_not_mem_text (c : Cell) : '\n' ∉ c.text.toList := by
  have hoperand : ∀ o : Operand, '\n' ∉ o.text.toList := fun o hmem => (Operand.of_mem_text hmem).2 rfl
  have hmnemonic : '\n' ∉ c.op.mnemonic.toList := fun hmem =>
    ne_stop (by decide) (Opcode.isAlpha_of_mem_mnemonic hmem) rfl
  have htail : '\n' ∉ c.tail := by
    unfold Cell.tail
    split
    · exact List.not_mem_nil
    · simp [hoperand c.b]
  simp [c.toList_text, hmnemonic, hoperand c.a, htail]

/-! ## The owner -/

theorem Owner.toList_label (o : Owner) :
    o.label.toList = 'p' :: ((toString o.program).toList ++ '.' :: (toString o.process).toList) := by
  simp [Owner.label]

theorem toString_inj {n m : Nat} (h : (toString n).toList = (toString m).toList) : n = m := by
  rwa [String.toList_inj, Nat.toString_eq_repr, Nat.toString_eq_repr, Nat.repr_inj] at h

/-- a number in front of a point ends there -/
theorem digits_inj {n m : Nat} {rest rest' : List Char}
    (h : (toString n).toList ++ '.' :: rest = (toString m).toList ++ '.' :: rest') : n = m ∧ rest = rest' := by
  have hdigits : ∀ k : Nat, ∀ ch ∈ (toString k).toList, ch.isDigit = true := fun k ch => isDigit_of_mem_toString
  have hnumber := congrArg (List.takeWhile Char.isDigit) h
  rw [takeWhile_of_stop (hdigits n) (by decide), takeWhile_of_stop (hdigits m) (by decide)] at hnumber
  rw [hnumber] at h
  exact ⟨toString_inj hnumber, (List.cons.inj (List.append_cancel_left h)).2⟩

theorem Owner.label_inj {o o' : Owner} (h : o.label.toList = o'.label.toList) : o = o' := by
  rw [o.toList_label, o'.toList_label] at h
  obtain ⟨hprogram, hprocess⟩ := digits_inj (List.cons.inj h).2
  obtain ⟨program, process⟩ := o
  obtain ⟨program', process'⟩ := o'
  rw [Owner.mk.injEq]
  exact ⟨hprogram, toString_inj hprocess⟩

theorem Cell.ownerLabel_inj {c c' : Cell} (h : c.ownerLabel.toList = c'.ownerLabel.toList) : c.owner = c'.owner := by
  unfold Cell.ownerLabel at h
  cases howner : c.owner with
  | none =>
    cases howner' : c'.owner with
    | none => rfl
    | some o' =>
      rw [howner, howner', Option.elim_none, Option.elim_some, o'.toList_label] at h
      exact absurd (List.cons.inj h).1 (by decide)
  | some o =>
    cases howner' : c'.owner with
    | none =>
      rw [howner, howner', Option.elim_none, Option.elim_some, o.toList_label] at h
      exact absurd (List.cons.inj h).1 (by decide)
    | some o' =>
      rw [howner, howner', Option.elim_some, Option.elim_some] at h
      rw [Owner.label_inj h]

theorem Cell.of_mem_ownerLabel {c : Cell} {ch : Char} (h : ch ∈ c.ownerLabel.toList) : ch ≠ ' ' ∧ ch ≠ '\n' := by
  unfold Cell.ownerLabel at h
  cases howner : c.owner with
  | none =>
    rw [howner, Option.elim_none] at h
    obtain rfl | rfl : ch = '-' ∨ ch = '-' := by simpa using h
    · decide
    · decide
  | some o =>
    rw [howner, Option.elim_some, o.toList_label] at h
    have hdigit : ∀ n : Nat, ch ∈ (toString n).toList → ch ≠ ' ' ∧ ch ≠ '\n' := by
      intro n hmem
      have hch := isDigit_of_mem_toString hmem
      exact ⟨ne_stop (by decide) hch, ne_stop (by decide) hch⟩
    rcases List.mem_cons.1 h with rfl | hids
    · decide
    · rcases List.mem_append.1 hids with hprogram | hrest
      · exact hdigit _ hprogram
      · rcases List.mem_cons.1 hrest with rfl | hprocess
        · decide
        · exact hdigit _ hprocess

/-! ## Lines of a listing -/

namespace Core

/-- a line of the listing, without its end -/
def lineOf (i : Nat) (c : Cell) : List Char :=
  (zeroPadded 4 i).toList ++ ':' :: ' ' ::
    (c.ownerLabel.toList ++ ' ' :: (List.replicate (8 - c.ownerLabel.toList.length) ' ' ++ c.text.toList))

/-- what stands behind the place of a line, its colon and the blank -/
def ownerColumn (line : List Char) : List Char := (line.dropWhile (· != ':')).drop 2

/-- the blanks that fill the column of the owner stand before the blank that ends it; it makes no difference -/
theorem toList_listingLine (i : Nat) (c : Cell) : (listingLine i c).toList = lineOf i c ++ ['\n'] := by
  have hblanks (k : Nat) (rest : List Char) :
      List.replicate k ' ' ++ ' ' :: rest = ' ' :: (List.replicate k ' ' ++ rest) := by
    rw [← List.singleton_append, ← List.append_assoc, ← List.replicate_succ', List.replicate_succ, List.cons_append]
  simp [listingLine, leftAligned, List.rightpad, lineOf, hblanks]

theorem colon_not_mem_place {i : Nat} : ∀ ch ∈ (zeroPadded 4 i).toList, (ch != ':') = true := fun _ hch =>
  bne_iff_ne.2 (ne_stop (by decide) (isDigit_of_mem_zeroPadded hch))

/-- the place of a line is the number in front of the colon -/
theorem place_of_lineOf (i : Nat) (c : Cell) :
    Nat.ofDigitChars 10 ((lineOf i c).takeWhile (· != ':')) 0 = i := by
  rw [lineOf, takeWhile_of_stop colon_not_mem_place (by decide), ofDigitChars_zeroPadded]

theorem ownerColumn_lineOf (i : Nat) (c : Cell) :
    ownerColumn (lineOf i c) =
      c.ownerLabel.toList ++ ' ' :: (List.replicate (8 - c.ownerLabel.toList.length) ' ' ++ c.text.toList) := by
  rw [ownerColumn, lineOf, dropWhile_of_stop colon_not_mem_place (by decide)]
  rfl

/-- the owner ends at the first blank of its column -/
theorem takeWhile_ownerColumn (i : Nat) (c : Cell) :
    (ownerColumn (lineOf i c)).takeWhile (· != ' ') = c.ownerLabel.toList := by
  have hlabel : ∀ ch ∈ c.ownerLabel.toList, (ch != ' ') = true :=
    fun ch hch => bne_iff_ne.2 (Cell.of_mem_ownerLabel hch).1
  rw [ownerColumn_lineOf, takeWhile_of_stop hlabel (by decide)]

/-- **Unique reading.** A line shows a place and a cell. -/
theorem lineOf_inj {i j : Nat} {c d : Cell} (h : lineOf i c = lineOf j d) : i = j ∧ c = d := by
  have hplace : i = j := by rw [← place_of_lineOf i c, h, place_of_lineOf]
  have hlabel : c.ownerLabel.toList = d.ownerLabel.toList := by
    rw [← takeWhile_ownerColumn i c, h, takeWhile_ownerColumn]
  have hcolumn := congrArg ownerColumn h
  rw [ownerColumn_lineOf, ownerColumn_lineOf, hlabel] at hcolumn
  have hpadded := (List.cons.inj (List.append_cancel_left hcolumn)).2
  obtain ⟨hop, ha, hb⟩ := Cell.text_inj (List.append_cancel_left hpadded)
  have howner := Cell.ownerLabel_inj hlabel
  obtain ⟨op, a, b, owner⟩ := c
  obtain ⟨op', a', b', owner'⟩ := d
  rw [Cell.mk.injEq]
  exact ⟨hplace, hop, ha, hb, howner⟩

theorem newline_not_mem_lineOf (i : Nat) (c : Cell) : '\n' ∉ lineOf i c := by
  have hplace : '\n' ∉ (zeroPadded 4 i).toList := fun hmem =>
    ne_stop (by decide) (isDigit_of_mem_zeroPadded hmem) rfl
  have hlabel : '\n' ∉ c.ownerLabel.toList := fun hmem => (Cell.of_mem_ownerLabel hmem).2 rfl
  simp [lineOf, hplace, hlabel, c.newline_not_mem_text]

/-! ## The whole listing -/

/-- the cells that are not empty, with their places -/
def entries (core : Core) : List (Cell × Nat) := core.cells.toList.zipIdx.filter fun (c, _) => !c.isEmpty

theorem mem_entries {core : Core} {c : Cell} {i : Nat} :
    (c, i) ∈ core.entries ↔ core.cells.toList[i]? = some c ∧ c ≠ Cell.empty := by
  have hempty : (!c.isEmpty) = true ↔ c ≠ Cell.empty := by
    rw [Bool.not_eq_true', ← Bool.not_eq_true, Cell.isEmpty_iff]
  rw [entries, List.mem_filter, List.mem_zipIdx_iff_getElem?, hempty]

theorem listingLines_eq (core : Core) : core.listingLines = core.entries.map fun (c, i) => listingLine i c := by
  rw [listingLines, entries, ← List.filterMap_eq_map, List.filterMap_filter]
  congr 1
  funext ⟨c, i⟩
  cases hempty : c.isEmpty <;> simp [hempty]

/-- the lines of a listing are those of the cells that are not empty -/
theorem linesOf_listing (core : Core) : linesOf core.listing = core.entries.map fun (c, i) => lineOf i c := by
  apply linesOf_join
  · intro line hline
    obtain ⟨⟨c, i⟩, -, rfl⟩ := List.mem_map.1 hline
    exact newline_not_mem_lineOf i c
  · simp only [listing, String.toList_join, listingLines_eq, List.flatMap_map, toList_listingLine]

/-- a cell that is not empty is known by its line -/
theorem mem_entries_iff_line {core : Core} {c : Cell} {i : Nat} :
    (c, i) ∈ core.entries ↔ lineOf i c ∈ linesOf core.listing := by
  rw [linesOf_listing, List.mem_map]
  constructor
  · intro hmem
    exact ⟨(c, i), hmem, rfl⟩
  · rintro ⟨⟨d, j⟩, hmem, hline⟩
    obtain ⟨rfl, rfl⟩ := lineOf_inj hline
    exact hmem

/-- a cell that is not empty has its line, so it stands in every core with that listing -/
theorem getElem?_of_listing_eq {core core' : Core} (htext : core.listing = core'.listing) {c : Cell} {i : Nat}
    (hget : core.cells.toList[i]? = some c) (hne : c ≠ Cell.empty) : core'.cells.toList[i]? = some c := by
  have hline : lineOf i c ∈ linesOf core.listing := mem_entries_iff_line.1 (mem_entries.2 ⟨hget, hne⟩)
  rw [htext] at hline
  exact (mem_entries.1 (mem_entries_iff_line.2 hline)).1

/-- **The listing law.** A listing and the size of the core together leave nothing open: opcodes, fields, modes and owners
are those on the lines, and a place without a line is empty. -/
theorem listing_law {core core' : Core} (hsize : core.size = core'.size) (htext : core.listing = core'.listing) :
    core = core' := by
  obtain ⟨cells⟩ := core
  obtain ⟨cells'⟩ := core'
  rw [Core.mk.injEq, ← Array.toList_inj]
  apply List.ext_getElem
  · exact hsize
  · intro i hi hi'
    have hget : cells.toList[i]? = some cells.toList[i] := List.getElem?_eq_getElem hi
    have hget' : cells'.toList[i]? = some cells'.toList[i] := List.getElem?_eq_getElem hi'
    by_cases hne : cells.toList[i] = Cell.empty
    · by_cases hne' : cells'.toList[i] = Cell.empty
      · rw [hne, hne']
      · have hback := getElem?_of_listing_eq htext.symm hget' hne'
        exact Option.some.inj (hget.symm.trans hback)
    · have hthere := getElem?_of_listing_eq htext hget hne
      exact Option.some.inj (hthere.symm.trans hget')

/-- a cell beyond the end of the line of cells and one before its start, written in either order -/
theorem listing_law_two_writes :
    let core := ((blank 3).write (-1) (Cell.data.ownedBy 4294967295 7)).write 4 (Cell.jmp (-2))
    let core' := ((blank 3).write 1 (Cell.jmp (-2))).write 2 (Cell.data.ownedBy 4294967295 7)
    core.listing = "0001: --       JMP $-2\n0002: p4294967295.7 DAT #0, #0\n" ∧
      core'.listing = "0001: --       JMP $-2\n0002: p4294967295.7 DAT #0, #0\n" ∧ core = core' := by
  have htext : (((blank 3).write (-1) (Cell.data.ownedBy 4294967295 7)).write 4 (Cell.jmp (-2))).listing =
      "0001: --       JMP $-2\n0002: p4294967295.7 DAT #0, #0\n" := by decide
  have htext' : (((blank 3).write 1 (Cell.jmp (-2))).write 2 (Cell.data.ownedBy 4294967295 7)).listing =
      "0001: --       JMP $-2\n0002: p4294967295.7 DAT #0, #0\n" := by decide
  exact ⟨htext, htext', listing_law rfl (htext.trans htext'.symm)⟩

end Core

end CoreWar
