import Mathlib.Data.Finset.Card
import Mathlib.Data.List.TakeWhile
import Mathlib.Data.Set.Card
import Mathlib.Order.Bounds.Basic
import SelectorLint.Position

/-!
# Lines and columns of a text

What the line and the column of an offset are, said by the line feeds of the text (`StandsAt`): the line
is the number of line feeds before the offset, counted from 1, and the column counts from the nearest of
the places at which lines start. A line index gives these numbers (`standsAt_position`), for every
offset.

The line is found by halving. What is left of the lines encloses the number of those that start up to the
offset (`Encloses`), so that the search ends with this number: the starts are in order.

As long as the numbers fit into 32 bits, positions are in the order of their offsets (`position_le`).
-/

namespace SelectorLint

open Text

/-- The byte at this place of the text is a line feed. -/
def LineFeedAt (text : List Char) (place : Nat) : Prop :=
  ∃ front rest, text = front ++ '\n' :: rest ∧ byteLength front = place

/-- The places up to `offset` at which lines start. -/
def lineStarts (text : List Char) (offset : Nat) : Set Nat :=
  {start | start ≤ offset ∧ (start = 0 ∨ ∃ place, LineFeedAt text place ∧ start = place + 1)}

/-- The position is that of the offset in the text, in numbers of 32 bits. -/
structure StandsAt (text : List Char) (offset : Nat) (position : Position) : Prop where
  line : position.line = (1 + {place | LineFeedAt text place ∧ place < offset}.ncard).toUInt32
  column : ∃ start, IsGreatest (lineStarts text offset) start ∧
    position.column = (1 + (offset - start)).toUInt32

/-! ## Line feeds -/

theorem not_lineFeedAt_nil (place : Nat) : ¬LineFeedAt [] place := by
  rintro ⟨front, rest, heq, -⟩
  simp at heq

theorem lineFeedAt_cons {c : Char} {rest : List Char} {place : Nat} :
    LineFeedAt (c :: rest) place ↔
      c = '\n' ∧ place = 0 ∨ ∃ later, LineFeedAt rest later ∧ place = c.utf8Size + later := by
  constructor
  · rintro ⟨_ | ⟨d, front⟩, after, heq, rfl⟩
    · exact .inl ⟨(List.cons.inj heq).1, rfl⟩
    · obtain ⟨rfl, rfl⟩ := List.cons.inj heq
      exact .inr ⟨byteLength front, ⟨front, after, rfl, rfl⟩, rfl⟩
  · rintro (⟨rfl, rfl⟩ | ⟨later, ⟨front, after, rfl, rfl⟩, rfl⟩)
    · exact ⟨[], rest, rfl, rfl⟩
    · exact ⟨c :: front, after, rfl, rfl⟩

namespace LineIndex

theorem mem_afterLineFeeds_iff {text : List Char} {offset start : Nat} :
    start ∈ afterLineFeeds offset text ↔ ∃ place, LineFeedAt text place ∧ start = offset + place + 1 := by
  induction text generalizing offset with
  | nil => simp [afterLineFeeds, not_lineFeedAt_nil]
  | cons c rest ih =>
    have hline : ('\n' : Char).utf8Size = 1 := rfl
    by_cases hc : c = '\n'
    · subst hc
      simp only [afterLineFeeds, if_true, List.mem_cons, ih, lineFeedAt_cons]
      constructor
      · rintro (rfl | ⟨place, hplace, rfl⟩)
        · exact ⟨0, .inl ⟨trivial, rfl⟩, by omega⟩
        · exact ⟨_, .inr ⟨place, hplace, rfl⟩, by omega⟩
      · rintro ⟨place, ⟨-, rfl⟩ | ⟨later, hlater, rfl⟩, rfl⟩
        · exact .inl (by omega)
        · exact .inr ⟨later, hlater, by omega⟩
    · simp only [afterLineFeeds, if_neg hc, ih, lineFeedAt_cons]
      constructor
      · rintro ⟨place, hplace, rfl⟩
        exact ⟨_, .inr ⟨place, hplace, rfl⟩, by omega⟩
      · rintro ⟨place, ⟨heq, -⟩ | ⟨later, hlater, rfl⟩, rfl⟩
        · exact absurd heq hc
        · exact ⟨later, hlater, by omega⟩

theorem pairwise_afterLineFeeds (offset : Nat) (text : List Char) :
    (afterLineFeeds offset text).Pairwise (· < ·) := by
  induction text generalizing offset with
  | nil => exact .nil
  | cons c rest ih =>
    unfold afterLineFeeds
    dsimp only
    split
    · refine List.pairwise_cons.2 ⟨fun start hstart => ?_, ih _⟩
      obtain ⟨place, -, rfl⟩ := mem_afterLineFeeds_iff.1 hstart
      omega
    · exact ih _

theorem pairwise_starts (text : String) : (ofText text).starts.toList.Pairwise (· < ·) := by
  refine List.pairwise_cons.2 ⟨fun start hstart => ?_, pairwise_afterLineFeeds _ _⟩
  obtain ⟨place, -, rfl⟩ := mem_afterLineFeeds_iff.1 hstart
  omega

/-! ## The lines up to an offset -/

theorem mem_takeWhile_le_iff {starts : List Nat} (h : starts.Pairwise (· < ·)) {offset start : Nat} :
    start ∈ starts.takeWhile (· ≤ offset) ↔ start ∈ starts ∧ start ≤ offset := by
  induction starts with
  | nil => simp
  | cons first rest ih =>
    obtain ⟨hfirst, hrest⟩ := List.pairwise_cons.1 h
    by_cases hle : first ≤ offset
    · rw [List.takeWhile_cons_of_pos (by simpa using hle), List.mem_cons, List.mem_cons, ih hrest]
      constructor
      · rintro (rfl | ⟨hmem, hstart⟩)
        · exact ⟨.inl rfl, hle⟩
        · exact ⟨.inr hmem, hstart⟩
      · rintro ⟨rfl | hmem, hstart⟩
        · exact .inl rfl
        · exact .inr ⟨hmem, hstart⟩
    · rw [List.takeWhile_cons_of_neg (by simpa using hle)]
      refine ⟨fun hmem => absurd hmem List.not_mem_nil, ?_⟩
      rintro ⟨hmem, hstart⟩
      rcases List.mem_cons.1 hmem with rfl | hmem
      · exact absurd hstart hle
      · have hlt := hfirst start hmem
        omega

/-- The starts of the lines up to an offset. -/
def startsUpTo (text : String) (offset : Nat) : List Nat :=
  (ofText text).starts.toList.takeWhile (· ≤ offset)

theorem pairwise_startsUpTo (text : String) (offset : Nat) :
    (startsUpTo text offset).Pairwise (· < ·) :=
  (pairwise_starts text).sublist (List.takeWhile_sublist _)

theorem mem_startsUpTo_iff {text : String} {offset start : Nat} :
    start ∈ startsUpTo text offset ↔ start ∈ lineStarts text.toList offset := by
  rw [startsUpTo, mem_takeWhile_le_iff (pairwise_starts text), ofText, List.mem_cons,
    mem_afterLineFeeds_iff, lineStarts, Set.mem_ofPred_eq, and_comm]
  simp

theorem nodup_startsUpTo (text : String) (offset : Nat) : (startsUpTo text offset).Nodup :=
  (pairwise_startsUpTo text offset).imp Nat.ne_of_lt

theorem length_startsUpTo (text : String) (offset : Nat) :
    (startsUpTo text offset).length =
      1 + {place | LineFeedAt text.toList place ∧ place < offset}.ncard := by
  obtain ⟨places, hplaces⟩ : ∃ places, places = {place | LineFeedAt text.toList place ∧ place < offset} :=
    ⟨_, rfl⟩
  have hfinite : places.Finite := (Set.finite_lt_nat offset).subset (by simp [hplaces])
  have hstarts : ((startsUpTo text offset).toFinset : Set Nat) = insert 0 (Set.image (· + 1) places) := by
    ext start
    rw [Finset.mem_coe, List.mem_toFinset, mem_startsUpTo_iff, lineStarts, hplaces]
    simp only [Set.mem_ofPred_eq, Set.mem_insert_iff, Set.mem_image]
    constructor
    · rintro ⟨hle, rfl | ⟨place, hplace, rfl⟩⟩
      · exact .inl rfl
      · exact .inr ⟨place, ⟨hplace, by omega⟩, rfl⟩
    · rintro (rfl | ⟨place, ⟨hplace, hlt⟩, rfl⟩)
      · exact ⟨Nat.zero_le _, .inl rfl⟩
      · exact ⟨by omega, .inr ⟨place, hplace, rfl⟩⟩
  have hzero : 0 ∉ Set.image (· + 1) places := by simp
  have hcard := congrArg Set.ncard hstarts
  rw [Set.ncard_coe_finset, List.toFinset_card_of_nodup (nodup_startsUpTo text offset),
    Set.ncard_insert_of_notMem hzero (hfinite.image _),
    Set.ncard_image_of_injective _ (add_left_injective 1)] at hcard
  rw [hcard, hplaces, Nat.add_comm]

theorem length_startsUpTo_le (text : String) (offset : Nat) :
    (startsUpTo text offset).length ≤ offset + 1 := by
  have hsubset : (startsUpTo text offset).toFinset ⊆ Finset.range (offset + 1) := by
    intro start hstart
    have hmem := mem_startsUpTo_iff.1 (List.mem_toFinset.1 hstart)
    exact Finset.mem_range.2 (Nat.lt_succ_of_le hmem.1)
  have hcard := Finset.card_le_card hsubset
  rwa [List.toFinset_card_of_nodup (nodup_startsUpTo text offset), Finset.card_range] at hcard

theorem isGreatest_getLastD (text : String) (offset : Nat) :
    IsGreatest (lineStarts text.toList offset) ((startsUpTo text offset).getLastD 0) := by
  have hzero : 0 ∈ startsUpTo text offset := mem_startsUpTo_iff.2 ⟨Nat.zero_le _, .inl rfl⟩
  have hordered := pairwise_startsUpTo text offset
  rcases List.eq_nil_or_concat (startsUpTo text offset) with hnil | ⟨front, last, hlast⟩
  · rw [hnil] at hzero
    cases hzero
  · rw [List.concat_eq_append] at hlast
    rw [hlast, List.getLastD_concat]
    rw [hlast] at hordered
    constructor
    · rw [← mem_startsUpTo_iff, hlast]
      exact List.mem_append_right _ List.mem_cons_self
    · intro start hstart
      rw [← mem_startsUpTo_iff, hlast] at hstart
      rcases List.mem_append.1 hstart with hfront | hsame
      · exact Nat.le_of_lt ((List.pairwise_append.1 hordered).2.2 start hfront last List.mem_cons_self)
      · exact Nat.le_of_eq (List.mem_singleton.1 hsame)

/-! ## The search -/

/-- The number of starts up to the offset lies between `low` and `high`. -/
structure Encloses (starts : List Nat) (offset low high : Nat) : Prop where
  ordered : low ≤ high
  within : high ≤ starts.length
  before : ∀ start ∈ starts.take low, start ≤ offset
  after : ∀ start ∈ starts.drop high, offset < start

namespace Encloses

variable {starts : List Nat} {offset low high middle : Nat}

/-- A start up to the offset has only such starts before it. -/
theorem raise (h : Encloses starts offset low high) (hsorted : starts.Pairwise (· < ·)) (hmiddle : middle < high)
    (hlength : middle < starts.length) (hle : starts[middle] ≤ offset) :
    Encloses starts offset (middle + 1) high := by
  refine ⟨hmiddle, h.within, fun start hstart => ?_, h.after⟩
  rw [← List.take_concat_get' _ _ hlength] at hstart
  rcases List.mem_append.1 hstart with hfront | hlast
  · have hall := hsorted
    rw [← List.take_append_drop middle starts, List.drop_eq_getElem_cons hlength] at hall
    have hlt := (List.pairwise_append.1 hall).2.2 start hfront _ List.mem_cons_self
    exact Nat.le_trans (Nat.le_of_lt hlt) hle
  · rwa [List.mem_singleton.1 hlast]

/-- A start past the offset has only such starts after it. -/
theorem lower (h : Encloses starts offset low high) (hsorted : starts.Pairwise (· < ·)) (hlow : low ≤ middle)
    (hlength : middle < starts.length) (hlt : offset < starts[middle]) : Encloses starts offset low middle := by
  refine ⟨hlow, Nat.le_of_lt hlength, h.before, fun start hstart => ?_⟩
  have hrest := hsorted.sublist (List.drop_sublist middle starts)
  rw [List.drop_eq_getElem_cons hlength] at hstart hrest
  rcases List.mem_cons.1 hstart with rfl | hmem
  · exact hlt
  · exact Nat.lt_trans hlt ((List.pairwise_cons.1 hrest).1 start hmem)

theorem takeWhile_eq (h : Encloses starts offset low low) : starts.takeWhile (· ≤ offset) = starts.take low := by
  conv_lhs => rw [← List.take_append_drop low starts]
  rw [List.takeWhile_append_of_pos (by simpa using h.before)]
  cases hrest : starts.drop low with
  | nil => simp
  | cons start rest =>
    have hlt := h.after start (by rw [hrest]; exact List.mem_cons_self)
    rw [List.takeWhile_cons_of_neg (by simpa using hlt), List.append_nil]

end Encloses

/-- The search goes on until nothing is left between the bounds. -/
theorem encloses_linesUpTo {index : LineIndex} (hsorted : index.starts.toList.Pairwise (· < ·))
    {offset low high : Nat} (h : Encloses index.starts.toList offset low high) :
    Encloses index.starts.toList offset (index.linesUpTo offset low high) (index.linesUpTo offset low high) := by
  fun_induction linesUpTo index offset low high with
  | case1 low high hlt middle hle ih =>
    have hsize : middle < index.starts.size := Nat.lt_of_lt_of_le (by omega) h.within
    rw [Array.getD_eq_getD_getElem?, Array.getElem?_eq_getElem hsize] at hle
    exact ih (h.raise hsorted (by omega) hsize hle)
  | case2 low high hlt middle hle ih =>
    have hsize : middle < index.starts.size := Nat.lt_of_lt_of_le (by omega) h.within
    rw [Array.getD_eq_getD_getElem?, Array.getElem?_eq_getElem hsize] at hle
    exact ih (h.lower hsorted (by omega) hsize (Nat.not_le.1 hle))
  | case3 low high hlt =>
    obtain rfl : low = high := by
      have hordered := h.ordered
      omega
    exact h

theorem encloses_whole (text : String) (offset : Nat) :
    Encloses (ofText text).starts.toList offset ((ofText text).linesUpTo offset 0 (ofText text).starts.size)
      ((ofText text).linesUpTo offset 0 (ofText text).starts.size) := by
  refine encloses_linesUpTo (pairwise_starts text) ⟨Nat.zero_le _, Nat.le_refl _, by simp, ?_⟩
  rw [← Array.length_toList, List.drop_length]
  simp

/-- The line of an offset is the last one that starts up to there. -/
theorem lineAt_add_one (text : String) (offset : Nat) :
    (ofText text).lineAt offset + 1 = (startsUpTo text offset).length ∧
      (ofText text).starts[(ofText text).lineAt offset]? = some ((startsUpTo text offset).getLastD 0) := by
  have hzero : 0 ∈ startsUpTo text offset := mem_startsUpTo_iff.2 ⟨Nat.zero_le _, .inl rfl⟩
  have hpos := List.length_pos_of_mem hzero
  have hcount := encloses_whole text offset
  unfold lineAt
  generalize (ofText text).linesUpTo offset 0 (ofText text).starts.size = count at hcount ⊢
  have htake : startsUpTo text offset = (ofText text).starts.toList.take count := hcount.takeWhile_eq
  have hlength := congrArg List.length htake
  have hwithin := hcount.within
  rw [List.length_take, Nat.min_eq_left hwithin] at hlength
  refine ⟨by omega, ?_⟩
  rw [List.getLastD_eq_getLast?, List.getLast?_eq_getElem?, hlength, htake, List.getElem?_take_of_lt (by omega),
    ← Array.getElem?_toList, List.getElem?_eq_getElem (by omega)]
  rfl

theorem position_eq (text : String) (offset : Nat) :
    (ofText text).position offset =
      ⟨(startsUpTo text offset).length.toUInt32,
        (offset - (startsUpTo text offset).getLastD 0 + 1).toUInt32⟩ := by
  obtain ⟨hline, hstart⟩ := lineAt_add_one text offset
  rw [position, hline, Array.getD_eq_getD_getElem?, hstart]
  rfl

/-- A line index knows the position of every offset. -/
theorem standsAt_position (text : String) (offset : Nat) :
    StandsAt text.toList offset ((ofText text).position offset) where
  line := by
    rw [← length_startsUpTo, position_eq]
  column := by
    refine ⟨_, isGreatest_getLastD text offset, ?_⟩
    rw [Nat.add_comm, position_eq]

/-! ## The order of positions -/

theorem startsUpTo_isPrefix {text : String} {first second : Nat} (hle : first ≤ second) :
    startsUpTo text first <+: startsUpTo text second := by
  have hboth : (startsUpTo text second).takeWhile (· ≤ first) = startsUpTo text first := by
    rw [startsUpTo, List.takeWhile_takeWhile, startsUpTo]
    congr 1
    funext start
    simp only [decide_eq_decide, decide_eq_true_eq]
    omega
  rw [← hboth]
  exact List.takeWhile_prefix _

/-- Positions are in the order of their offsets, if these are small enough. -/
theorem position_le {text : String} {first second : Nat} (hle : first ≤ second)
    (hbound : second + 1 < UInt32.size) :
    ((ofText text).position first).line < ((ofText text).position second).line ∨
      ((ofText text).position first).line = ((ofText text).position second).line ∧
        ((ofText text).position first).column ≤ ((ofText text).position second).column := by
  have hbegin : startsUpTo text first <+: startsUpTo text second := startsUpTo_isPrefix hle
  have hshort := length_startsUpTo_le text second
  rw [position_eq, position_eq]
  by_cases hlength : (startsUpTo text first).length < (startsUpTo text second).length
  · left
    show (startsUpTo text first).length.toUInt32 < (startsUpTo text second).length.toUInt32
    rw [UInt32.lt_iff_toNat_lt, Nat.toUInt32_eq, Nat.toUInt32_eq, UInt32.toNat_ofNat_of_lt' (by omega),
      UInt32.toNat_ofNat_of_lt' (by omega)]
    exact hlength
  · right
    have hsame : startsUpTo text first = startsUpTo text second := by
      have hle := hbegin.length_le
      exact hbegin.eq_of_length (by omega)
    refine ⟨congrArg (fun starts : List Nat => starts.length.toUInt32) hsame, ?_⟩
    show (first - (startsUpTo text first).getLastD 0 + 1).toUInt32 ≤
      (second - (startsUpTo text second).getLastD 0 + 1).toUInt32
    rw [hsame, UInt32.le_iff_toNat_le, Nat.toUInt32_eq, Nat.toUInt32_eq,
      UInt32.toNat_ofNat_of_lt' (by omega), UInt32.toNat_ofNat_of_lt' (by omega)]
    omega

end LineIndex

end SelectorLint
