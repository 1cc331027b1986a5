/-
Lines: reading a text back.

A text whose lines all end with an end of line is cut at the ends of lines. What a line is made of is read from the left,
each part as far as its characters go: this works where a part is followed by a character that it cannot contain. Numbers
are followed by something that is no digit.

- `linesOf_join`: a text that was put together from lines has these lines.
- `takeWhile_of_stop`, `dropWhile_of_stop`: the part in front of a character that ends it, and the rest.
- `ofDigitChars_zeroPadded`: a number with zeros in front has its value.
-/
import CoreWar.Core.Listing

namespace CoreWar

/-! ## Lines -/

/-- the lines of a text, without their ends; what stands behind the last end of line is none -/
def linesOf (text : String) : List (List Char) := (text.toList.splitOn '\n').dropLast

theorem splitOn_lines {lines : List (List Char)} (h : ∀ line ∈ lines, '\n' ∉ line) :
    (lines.flatMap (· ++ ['\n'])).splitOn '\n' = lines ++ [[]] := by
  induction lines with
  | nil => rfl
  | cons line rest ih =>
    obtain ⟨hline, hrest⟩ := List.forall_mem_cons.1 h
    rw [List.flatMap_cons, List.append_assoc, List.singleton_append,
      List.splitOn_append_cons_self_of_not_mem hline, ih hrest, List.cons_append]

/-- a text that was put together from lines has these lines -/
theorem linesOf_join {lines : List (List Char)} (h : ∀ line ∈ lines, '\n' ∉ line) {text : String}
    (htext : text.toList = lines.flatMap (· ++ ['\n'])) : linesOf text = lines := by
  rw [linesOf, htext, splitOn_lines h, List.dropLast_concat]

/-! ## Parts of a line -/

section

variable {p : Char → Bool} {part rest : List Char} {stop : Char} (hpart : ∀ ch ∈ part, p ch = true)
  (hstop : p stop = false)
include hpart hstop

theorem takeWhile_of_stop : (part ++ stop :: rest).takeWhile p = part := by
  rw [List.takeWhile_append_of_pos hpart, List.takeWhile_cons_of_neg (by simp [hstop]), List.append_nil]

theorem dropWhile_of_stop : (part ++ stop :: rest).dropWhile p = stop :: rest := by
  rw [List.dropWhile_append_of_pos hpart, List.dropWhile_cons_of_neg (by simp [hstop])]

omit hpart in
/-- a character of one class is none of another -/
theorem ne_stop {ch : Char} (hch : p ch = true) : ch ≠ stop := by
  rintro rfl
  rw [hstop] at hch
  cases hch

end

/-! ## Numbers -/

theorem isDigit_of_mem_toString {n : Nat} {ch : Char} (h : ch ∈ (toString n).toList) : ch.isDigit = true := by
  rw [Nat.toString_eq_repr, Nat.toList_repr] at h
  exact Nat.isDigit_of_mem_toDigits (by decide) (by decide) h

/-- a number is a sign, if any, and digits -/
theorem of_mem_toString_int {n : Int} {ch : Char} (h : ch ∈ (toString n).toList) : ch = '-' ∨ ch.isDigit = true := by
  rw [Int.toString_eq_repr, Int.repr_eq_if] at h
  split at h
  · exact Or.inr (isDigit_of_mem_toString h)
  · rw [String.toList_append, List.mem_append] at h
    rcases h with hsign | hdigit
    · exact Or.inl (List.mem_singleton.1 hsign)
    · exact Or.inr (isDigit_of_mem_toString hdigit)

theorem toList_zeroPadded (width n : Nat) :
    (zeroPadded width n).toList = List.replicate (width - (toString n).toList.length) '0' ++ (toString n).toList := by
  rw [zeroPadded, String.toList_ofList, List.leftpad]

theorem isDigit_of_mem_zeroPadded {width n : Nat} {ch : Char} (h : ch ∈ (zeroPadded width n).toList) :
    ch.isDigit = true := by
  rw [toList_zeroPadded, List.mem_append] at h
  rcases h with hzero | hdigit
  · rw [(List.mem_replicate.1 hzero).2]
    rfl
  · exact isDigit_of_mem_toString hdigit

/-- zeros in front do not count -/
theorem ofDigitChars_zeroPadded (width n : Nat) : Nat.ofDigitChars 10 (zeroPadded width n).toList 0 = n := by
  have hzeros : ∀ k, Nat.ofDigitChars 10 (List.replicate k '0') 0 = 0 := by
    intro k
    induction k with
    | zero => rfl
    | succ k ih => rw [List.replicate_succ, Nat.ofDigitChars_cons]; exact ih
  rw [toList_zeroPadded, Nat.ofDigitChars_append, hzeros, Nat.toString_eq_repr, Nat.toList_repr,
    Nat.ofDigitChars_toDigits (by decide) (by decide)]

end CoreWar
