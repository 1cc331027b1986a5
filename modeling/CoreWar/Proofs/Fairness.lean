/-
Fairness: a random loading favours no free place.

A draw below a bound throws words away, and a search for a start throws draws away, but only the latter count as attempts.
So how many words a random loading takes, and where it ends, depends on all the words in a tangled way. It need not be
untangled. Every number below the bound is spelled by equally many words, which stand in a row. So for any two numbers
there is an exchange of words that spells one in place of the other and leaves all other words as they are. Applied to a
whole sequence of words, it takes every search that ends at one of two free places to a search that ends at the other,
draw by draw and word by word.

- `Random.accept?_eq_some_iff`: the words that spell a number are a row of `share` words.
- `Random.respell`: the words that spell other numbers instead; `accept?_respell`, `respell_respell`.
- `drawWithin?_respelled`, `drawStart_respelled`, `LeadsTo.respelled`: draws, the search and the loading, on words that are
  respelled. A draw gives up only after `2 ^ 64` words that were thrown away.
- `fairness_law`: as many sequences of words lead to one free place as to another.
-/
import Mathlib.Data.FinEnum
import Mathlib.Data.Set.Card
import Mathlib.Data.Set.Finite.List
import CoreWar.Proofs.Draws

namespace CoreWar

namespace Random

/-! ## The words that spell a number -/

/-- how many words spell each number below the bound -/
def share (bound : Nat) : Nat := 2 ^ (63 - bound.log2)

/-- the first word that spells the number: the least one whose product with the bound has it as its high half -/
def firstWord (bound n : Nat) : Nat := (n * UInt64.size + (bound - 1)) / bound

theorem zone_eq (bound : Nat) : zone bound = bound * share bound := Nat.shiftLeft_eq _ _

section

variable {bound : Nat} (hpos : 0 < bound)
include hpos

theorem zone_le (hbound : bound < UInt64.size) : zone bound ≤ UInt64.size := by
  have hlog : bound.log2 < 64 := (Nat.log2_lt (Nat.ne_of_gt hpos)).2 hbound
  have htop : bound ≤ 2 ^ (bound.log2 + 1) := Nat.le_of_lt Nat.lt_log2_self
  calc zone bound = bound * 2 ^ (63 - bound.log2) := zone_eq bound
    _ ≤ 2 ^ (bound.log2 + 1) * 2 ^ (63 - bound.log2) := Nat.mul_le_mul_right _ htop
    _ = UInt64.size := by
      rw [← Nat.pow_add, show bound.log2 + 1 + (63 - bound.log2) = 64 by omega]

theorem firstWord_le_iff {n w : Nat} : firstWord bound n ≤ w ↔ n * UInt64.size ≤ w * bound := by
  rw [firstWord, Nat.div_le_iff_le_mul_add_pred hpos, Nat.add_le_add_iff_right, Nat.mul_comm bound]

theorem lt_firstWord_add_share_iff {n w : Nat} :
    w < firstWord bound n + share bound ↔ w * bound < n * UInt64.size + zone bound := by
  rw [zone_eq, ← Nat.not_le, ← Nat.not_le, not_iff_not, Nat.mul_comm bound]
  by_cases hw : share bound ≤ w
  · obtain ⟨rest, rfl⟩ := Nat.exists_eq_add_of_le' hw
    rw [Nat.add_le_add_iff_right, firstWord_le_iff hpos, Nat.add_mul, Nat.add_le_add_iff_right]
  · have hless : w * bound < share bound * bound := Nat.mul_lt_mul_of_pos_right (Nat.lt_of_not_le hw) hpos
    omega

variable (hbound : bound < UInt64.size)
include hbound

/-- **The words that spell a number** are `share` words in a row. -/
theorem accept?_eq_some_iff {n : Nat} {word : UInt64} :
    accept? bound word = some n ↔
      firstWord bound n ≤ word.toNat ∧ word.toNat < firstWord bound n + share bound := by
  have hzone := zone_le hpos hbound
  rw [firstWord_le_iff hpos, lt_firstWord_add_share_iff hpos, accept?]
  simp only [Option.ite_none_right_eq_some, Option.some.injEq]
  generalize word.toNat * bound = product
  have hsplit := Nat.div_add_mod' product UInt64.size
  constructor
  · rintro ⟨hlow, rfl⟩
    omega
  · rintro ⟨hleft, hright⟩
    have hhigh : product / UInt64.size = n := by
      rw [Nat.div_eq_iff (by decide)]
      omega
    rw [hhigh] at hsplit
    exact ⟨by omega, hhigh⟩

/-- there is a word for each place in the row -/
theorem toNat_spelled {n i : Nat} (hn : n < bound) (hi : i < share bound) :
    (UInt64.ofNat (firstWord bound n + i)).toNat = firstWord bound n + i := by
  apply UInt64.toNat_ofNat_of_lt'
  have hzone := zone_le hpos hbound
  have hlast := (lt_firstWord_add_share_iff hpos).1 (Nat.add_lt_add_left hi (firstWord bound n))
  have hrows : (n + 1) * UInt64.size ≤ bound * UInt64.size := Nat.mul_le_mul_right _ hn
  rw [Nat.succ_mul, Nat.mul_comm bound] at hrows
  exact Nat.lt_of_mul_lt_mul_right (Nat.lt_of_lt_of_le hlast (by omega))

theorem accept?_spelled {n i : Nat} (hn : n < bound) (hi : i < share bound) :
    accept? bound (UInt64.ofNat (firstWord bound n + i)) = some n := by
  rw [accept?_eq_some_iff hpos hbound, toNat_spelled hpos hbound hn hi]
  omega

end

/-! ## Respelling -/

/-- the word in the same place of the row that spells `f n`, for a word that spells `n`; a word that is thrown away stays
as it is -/
def respell (bound : Nat) (f : Nat → Nat) (word : UInt64) : UInt64 :=
  match accept? bound word with
  | none => word
  | some n => UInt64.ofNat (firstWord bound (f n) + (word.toNat - firstWord bound n))

section

variable {bound : Nat} (hpos : 0 < bound) (hbound : bound < UInt64.size) {f : Nat → Nat} (hf : ∀ n < bound, f n < bound)
include hpos hbound hf

theorem accept?_respell (word : UInt64) : accept? bound (respell bound f word) = (accept? bound word).map f := by
  unfold respell
  cases haccept : accept? bound word with
  | none => exact haccept
  | some n =>
    have hrow := (accept?_eq_some_iff hpos hbound).1 haccept
    exact accept?_spelled hpos hbound (hf n (accept?_lt haccept)) (by omega)

/-- where `f` exchanges numbers, respelling twice gives the word back -/
theorem respell_respell (hff : ∀ n, f (f n) = n) (word : UInt64) :
    respell bound f (respell bound f word) = word := by
  have hagain := accept?_respell hpos hbound hf word
  cases haccept : accept? bound word with
  | none =>
    have hsame : respell bound f word = word := by rw [respell, haccept]
    rw [hsame, hsame]
  | some n =>
    have hrow := (accept?_eq_some_iff hpos hbound).1 haccept
    have hspelled : respell bound f word = UInt64.ofNat (firstWord bound (f n) + (word.toNat - firstWord bound n)) := by
      rw [respell, haccept]
    have hplace := toNat_spelled hpos hbound (hf n (accept?_lt haccept))
      (show word.toNat - firstWord bound n < share bound by omega)
    rw [haccept, Option.map_some] at hagain
    rw [respell, hagain]
    simp only [hff]
    rw [hspelled, hplace, Nat.add_sub_cancel_left, Nat.add_sub_cancel' hrow.1, UInt64.ofNat_toNat]

end

/-! ## Draws from a sequence of words -/

/-- a source that reads the words one after the other, and zeros behind their end -/
structure Tape (words : List UInt64) where
  /-- how many words have been taken -/
  taken : Nat := 0
deriving DecidableEq, Repr

instance (words : List UInt64) : WordSource (Tape words) := ⟨fun g => (words.getD g.taken 0, ⟨g.taken + 1⟩)⟩

/-- the same place in other words -/
def Tape.on {words : List UInt64} (g : Tape words) (words' : List UInt64) : Tape words' := ⟨g.taken⟩

variable {words : List UInt64}

theorem drawWithin?_succ (bound tries : Nat) (g : Tape words) :
    drawWithin? bound (tries + 1) g =
      match accept? bound (words.getD g.taken 0) with
      | some n => (some n, ⟨g.taken + 1⟩)
      | none => drawWithin? bound tries ⟨g.taken + 1⟩ := rfl

/-- words are taken, and not put back -/
theorem taken_le_drawWithin? (bound tries : Nat) (g : Tape words) : g.taken ≤ (drawWithin? bound tries g).2.taken := by
  induction tries generalizing g with
  | zero => exact Nat.le_refl _
  | succ tries ih =>
    rw [drawWithin?_succ]
    cases accept? bound (words.getD g.taken 0) with
    | some n => exact Nat.le_succ _
    | none => exact Nat.le_trans (Nat.le_succ _) (ih ⟨g.taken + 1⟩)

/-- a draw that does not go beyond the end takes as many of the respelled words, and comes to the other number -/
theorem drawWithin?_respelled {bound : Nat} (hpos : 0 < bound) (hbound : bound < UInt64.size) {f : Nat → Nat}
    (hf : ∀ n < bound, f n < bound) {tries : Nat} {g : Tape words}
    (hend : (drawWithin? bound tries g).2.taken ≤ words.length) :
    let words' := words.map (respell bound f)
    drawWithin? bound tries (g.on words') =
      ((drawWithin? bound tries g).1.map f, (drawWithin? bound tries g).2.on words') := by
  intro words'
  induction tries generalizing g with
  | zero => rfl
  | succ tries ih =>
    have hfirst : g.taken < words.length := by
      rw [drawWithin?_succ] at hend
      cases haccept : accept? bound (words.getD g.taken 0) with
      | some n =>
        rw [haccept] at hend
        exact hend
      | none =>
        rw [haccept] at hend
        exact Nat.lt_of_lt_of_le (Nat.lt_succ_self _) (Nat.le_trans (taken_le_drawWithin? bound tries _) hend)
    have hword : words'.getD g.taken 0 = respell bound f (words.getD g.taken 0) := by
      simp [words', List.getD, hfirst]
    have hnumber := accept?_respell hpos hbound hf (words.getD g.taken 0)
    rw [← hword] at hnumber
    rw [drawWithin?_succ] at hend
    rw [drawWithin?_succ, drawWithin?_succ, show (g.on words').taken = g.taken from rfl, hnumber]
    cases haccept : accept? bound (words.getD g.taken 0) with
    | some n => rfl
    | none =>
      rw [haccept] at hend
      exact ih hend

end Random

namespace Battle

variable {G : Type}

/-- the battle with a source that reads the words -/
def reading (b : Battle G) (words : List UInt64) : Battle (Random.Tape words) := { b with generator := {} }

/-! ## The search and the loading, on respelled words -/

section

variable {b : Battle G} {length : Nat} {words : List UInt64}

theorem drawStart_succ (attempts : Nat) (g : Random.Tape words) :
    (b.reading words).drawStart length (attempts + 1) g =
      match Random.drawBelow? b.core.size g with
      | (none, g) => (.error .noDraw, g)
      | (some start, g) =>
        if b.RoomAt length start then (.ok start, g) else (b.reading words).drawStart length attempts g := by
  rw [drawStart, show (b.reading words).core = b.core from rfl, show (b.reading words).rules = b.rules from rfl]
  rcases Random.drawBelow? b.core.size g with ⟨_ | start, g'⟩
  · rfl
  · cases hroom : b.core.firstOccupied? b.rules.placement start length with
    | none => simp [RoomAt, hroom]
    | some place => simp [RoomAt, hroom]

theorem taken_le_drawStart (b : Battle G) (length attempts : Nat) (g : Random.Tape words) :
    g.taken ≤ ((b.reading words).drawStart length attempts g).2.taken := by
  induction attempts generalizing g with
  | zero => exact Nat.le_refl _
  | succ attempts ih =>
    have hdraw : g.taken ≤ (Random.drawBelow? b.core.size g).2.taken := Random.taken_le_drawWithin? _ _ g
    rw [drawStart_succ]
    rcases hfirst : Random.drawBelow? b.core.size g with ⟨_ | start, g'⟩
    · rw [hfirst] at hdraw
      exact hdraw
    · rw [hfirst] at hdraw
      by_cases hroom : b.RoomAt length start
      · simp only [if_pos hroom]
        exact hdraw
      · simp only [if_neg hroom]
        exact Nat.le_trans hdraw (ih g')

variable (hpos : 0 < b.core.size) (hsize : b.core.size < UInt64.size) {f : Nat → Nat}
  (hf : ∀ n < b.core.size, f n < b.core.size) (hroom : ∀ n, b.RoomAt length (f n) ↔ b.RoomAt length n)
include hpos hsize hf hroom

/-- a search that does not go beyond the end takes as many of the respelled words, and ends at the other start -/
theorem drawStart_respelled {attempts : Nat} {g : Random.Tape words}
    (hend : ((b.reading words).drawStart length attempts g).2.taken ≤ words.length) :
    let words' := words.map (Random.respell b.core.size f)
    (b.reading words').drawStart length attempts (g.on words') =
      (((b.reading words).drawStart length attempts g).1.map f,
        ((b.reading words).drawStart length attempts g).2.on words') := by
  intro words'
  induction attempts generalizing g with
  | zero => rfl
  | succ attempts ih =>
    rw [drawStart_succ] at hend
    rw [drawStart_succ, drawStart_succ]
    -- the first draw does not go beyond the end either
    have hread : (Random.drawBelow? b.core.size g).2.taken ≤ words.length := by
      rcases hfirst : Random.drawBelow? b.core.size g with ⟨_ | start, g'⟩
      · rw [hfirst] at hend
        exact hend
      · simp only [hfirst] at hend
        split at hend
        · exact hend
        · exact Nat.le_trans (taken_le_drawStart b length attempts g') hend
    have hdraw : Random.drawBelow? b.core.size (g.on words') =
        ((Random.drawBelow? b.core.size g).1.map f, (Random.drawBelow? b.core.size g).2.on words') :=
      Random.drawWithin?_respelled hpos hsize hf hread
    rw [hdraw]
    rcases hfirst : Random.drawBelow? b.core.size g with ⟨_ | start, g'⟩
    · rfl
    · simp only [hfirst] at hend
      simp only [Option.map_some, hroom start]
      by_cases hfree : b.RoomAt length start
      · simp only [if_pos hfree]
        rfl
      · simp only [if_neg hfree] at hend ⊢
        exact ih hend

end

/-! ## Main result -/

/-- the places of the core at which a code of this length finds all the cells free that must be -/
def freeStarts (b : Battle G) (length : Nat) : Set Nat := {start | start < b.core.size ∧ b.RoomAt length start}

/-- with these words, the random loading of the code takes all of them and no more, and gives the start -/
def LeadsTo (b : Battle G) (id : ProgramId) (process : ProcessId) (code : List Cell) (words : List UInt64)
    (start : Nat) : Prop :=
  ((b.reading words).load id process code).1 = .ok start ∧
    ((b.reading words).load id process code).2.generator.taken = words.length

section

variable {b : Battle G} {id : ProgramId} {process : ProcessId} {code : List Cell}
  (hload : b.checkLoadable id code = .ok ())
include hload

/-- a random loading gives what its search gives, and takes the words that its search takes -/
theorem leadsTo_iff {words : List UInt64} {start : Nat} :
    b.LeadsTo id process code words start ↔
      (b.reading words).drawStart code.length b.rules.maxPlacementAttempts {} = (.ok start, ⟨words.length⟩) := by
  have hsearch := @load_of_loadable _ _ (b.reading words) id process code hload
  rw [show (b.reading words).rules = b.rules from rfl, show (b.reading words).generator = {} from rfl] at hsearch
  rw [LeadsTo, hsearch]
  rcases (b.reading words).drawStart code.length b.rules.maxPlacementAttempts {} with ⟨_ | start', ⟨taken⟩⟩
  · simp
  · simp [Prod.mk.injEq]

variable {s t : Nat} (hs : s ∈ b.freeStarts code.length) (ht : t ∈ b.freeStarts code.length)
include hs ht

omit hload in
/-- an exchange of two free starts keeps to the core, and to the free starts -/
theorem swap_freeStarts :
    (∀ n < b.core.size, Equiv.swap s t n < b.core.size) ∧
      ∀ n, b.RoomAt code.length (Equiv.swap s t n) ↔ b.RoomAt code.length n := by
  refine ⟨?_, ?_⟩
  · intro n hn
    rw [Equiv.swap_apply_def]
    split_ifs
    · exact ht.1
    · exact hs.1
    · exact hn
  · intro n
    rw [Equiv.swap_apply_def]
    split_ifs with hns hnt
    · rw [hns]
      exact iff_of_true ht.2 hs.2
    · rw [hnt]
      exact iff_of_true hs.2 ht.2
    · rfl

variable (hsize : b.core.size < UInt64.size)
include hsize

/-- respelled from one free start to the other, words that lead to the one lead to the other -/
theorem LeadsTo.respelled {words : List UInt64} (hwords : b.LeadsTo id process code words s) :
    b.LeadsTo id process code (words.map (Random.respell b.core.size (Equiv.swap s t))) t := by
  obtain ⟨hbelow, hroom⟩ := swap_freeStarts hs ht
  rw [leadsTo_iff hload] at hwords ⊢
  have hend : ((b.reading words).drawStart code.length b.rules.maxPlacementAttempts {}).2.taken ≤ words.length := by
    rw [hwords]
  have hsearch := drawStart_respelled (size_pos_of_checkLoadable hload) hsize hbelow hroom hend
  rw [hwords] at hsearch
  rw [List.length_map]
  refine hsearch.trans ?_
  simp only [Except.map, Equiv.swap_apply_left]
  rfl

/-- so there are not fewer sequences of words, of the same length, that lead to the other -/
theorem ncard_leadsTo_le (count : Nat) :
    {words | words.length = count ∧ b.LeadsTo id process code words s}.ncard ≤
      {words | words.length = count ∧ b.LeadsTo id process code words t}.ncard := by
  have hbelow := (swap_freeStarts hs ht).1
  have hback : ∀ word, Random.respell b.core.size (Equiv.swap s t)
      (Random.respell b.core.size (Equiv.swap s t) word) = word :=
    Random.respell_respell (size_pos_of_checkLoadable hload) hsize hbelow fun n => Equiv.swap_apply_self s t n
  refine Set.ncard_le_ncard_of_injOn (List.map (Random.respell b.core.size (Equiv.swap s t))) ?_ ?_ ?_
  · rintro words ⟨hlength, hwords⟩
    exact ⟨by rw [List.length_map, hlength], hwords.respelled hload hs ht hsize⟩
  · exact (List.map_injective_iff.2 (Function.Involutive.injective hback)).injOn
  · exact (List.finite_length_eq UInt64 count).subset fun words hwords => hwords.1

end

/-- **A random loading favours no free place.** Take any battle in a core of less than `2 ^ 64` cells, whatever has
happened in it and whatever its rules, and any code that can be loaded. Of the sequences of so many words that the random
loading takes to their end and no further, as many lead to one free start as to any other; and no words lead to a start
that is not free. -/
theorem fairness_law (b : Battle G) {id : ProgramId} {process : ProcessId} {code : List Cell}
    (hload : b.checkLoadable id code = .ok ()) (hsize : b.core.size < 2 ^ 64) :
    (∀ count, ∀ s ∈ b.freeStarts code.length, ∀ t ∈ b.freeStarts code.length,
      {words | words.length = count ∧ b.LeadsTo id process code words s}.Finite ∧
        {words | words.length = count ∧ b.LeadsTo id process code words s}.ncard =
          {words | words.length = count ∧ b.LeadsTo id process code words t}.ncard) ∧
    ∀ words start, ((b.reading words).load id process code).1 = .ok start → start ∈ b.freeStarts code.length := by
  refine ⟨?_, ?_⟩
  · intro count s hs t ht
    refine ⟨?_, ?_⟩
    · exact (List.finite_length_eq UInt64 count).subset fun words hwords => hwords.1
    · exact Nat.le_antisymm (ncard_leadsTo_le hload hs ht hsize count) (ncard_leadsTo_le hload ht hs hsize count)
  · intro words start hstart
    rcases (b.reading words).load_cases id process code with ⟨refusal, generator, heq⟩ |
      ⟨generator, start', -, hfree, hlt, heq⟩
    · rw [heq] at hstart
      cases hstart
    · rw [heq] at hstart
      obtain rfl : start' = start := Except.ok.inj hstart
      exact ⟨hlt, hfree⟩

/-- two words, of which the first draws a taken cell, lead to one of the two free cells, so there are two that lead to the
other -/
theorem fairness_law_half_taken :
    let jump : List Cell := [Cell.jmp 0]
    halfTaken.checkLoadable 1 jump = .ok () ∧ halfTaken.core.size < 2 ^ 64 ∧
      2 ∈ halfTaken.freeStarts 1 ∧ 3 ∈ halfTaken.freeStarts 1 ∧
      halfTaken.LeadsTo 1 0 jump [0, 0x8000000000000000] 2 ∧
      0 < {words | words.length = 2 ∧ halfTaken.LeadsTo 1 0 jump words 3}.ncard := by
  intro jump
  have hload : halfTaken.checkLoadable 1 jump = .ok () := rfl
  have hsize : halfTaken.core.size < 2 ^ 64 := by decide
  have htwo : 2 ∈ halfTaken.freeStarts jump.length := ⟨by decide, by decide⟩
  have hthree : 3 ∈ halfTaken.freeStarts jump.length := ⟨by decide, by decide⟩
  have hleads : halfTaken.LeadsTo 1 0 jump [0, 0x8000000000000000] 2 := ⟨rfl, by decide +kernel⟩
  obtain ⟨hfinite, hequal⟩ := (fairness_law halfTaken hload hsize).1 2 2 htwo 3 hthree
  refine ⟨hload, hsize, htwo, hthree, hleads, ?_⟩
  rw [← hequal, Set.ncard_pos hfinite]
  exact ⟨_, rfl, hleads⟩

end Battle

end CoreWar
