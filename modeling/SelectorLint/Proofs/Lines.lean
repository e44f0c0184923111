import Mathlib.Data.Nat.Count
import Mathlib.Data.Nat.Find
import SelectorLint.Proofs.Position
import SelectorLint.Proofs.Text.Encoding

/-!
# Positions counted from the bytes of a text

The line and the column of an offset are numbers that can be counted from the bytes of the text alone:
`lineNumber` counts the line feeds before the offset, and `columnNumber` the bytes after the last of them. The
search of a line index finds both for every offset, also past the end of the text, up to the 32 bits that are
kept (`position_counts`).

The numbers themselves tell offsets apart and are in their order (`numbers_lt`): either there is a line feed
between two offsets, or both are counted from the same place. So positions do the same as long as no number
is cut (`Fits`), and none is before the offset 4294967295.
-/

namespace SelectorLint

open Text

/-- The byte of the text at this place is a line feed. -/
def IsLineFeed (text : String) (place : Nat) : Prop := text.toUTF8[place]? = some 10

instance (text : String) : DecidablePred (IsLineFeed text) :=
  fun place => inferInstanceAs (Decidable (text.toUTF8[place]? = some 10))

/-- The number of the line that an offset is on. -/
def lineNumber (text : String) (offset : Nat) : Nat := 1 + Nat.count (IsLineFeed text) offset

/-- The place just after the last line feed before an offset, or 0 if there is none. -/
def lineStart (text : String) (offset : Nat) : Nat :=
  Nat.findGreatest (fun start => 0 < start ∧ IsLineFeed text (start - 1)) offset

/-- The number of the column that an offset is in. -/
def columnNumber (text : String) (offset : Nat) : Nat := 1 + (offset - lineStart text offset)

/-- The numbers of an offset are not too large for a position. -/
def Fits (text : String) (offset : Nat) : Prop :=
  lineNumber text offset < UInt32.size ∧ columnNumber text offset < UInt32.size

/-- The first position comes before the second one: on an earlier line, or before it on the same line. -/
def Position.Precedes (first second : Position) : Prop :=
  first.line < second.line ∨ first.line = second.line ∧ first.column < second.column

/-! ## Line feeds among the bytes -/

theorem getElem?_bytes_eq_lineFeed_iff {text : List Char} {place : Nat} :
    (bytes text)[place]? = some 10 ↔ LineFeedAt text place := by
  induction text generalizing place with
  | nil => simp [bytes, not_lineFeedAt_nil]
  | cons c rest ih =>
    have hbytes : bytes (c :: rest) = String.utf8EncodeChar c ++ bytes rest := rfl
    have hsize : (String.utf8EncodeChar c).length = c.utf8Size := String.length_utf8EncodeChar c
    have hpos := c.utf8Size_pos
    rw [lineFeedAt_cons, hbytes]
    by_cases hplace : place < c.utf8Size
    · rw [List.getElem?_append_left (by omega)]
      constructor
      · intro hbyte
        obtain rfl := eq_lineFeed_of_mem_utf8EncodeChar (List.mem_of_getElem? hbyte)
        have hone : ('\n' : Char).utf8Size = 1 := rfl
        exact .inl ⟨rfl, by omega⟩
      · intro h
        rcases h with ⟨rfl, rfl⟩ | ⟨later, -, rfl⟩
        · rfl
        · omega
    · rw [List.getElem?_append_right (by omega), hsize, ih]
      constructor
      · intro h
        exact .inr ⟨_, h, by omega⟩
      · intro h
        rcases h with ⟨-, rfl⟩ | ⟨later, hlater, rfl⟩
        · omega
        · rwa [Nat.add_sub_cancel_left]

theorem lineFeedAt_iff_isLineFeed {text : String} {place : Nat} :
    LineFeedAt text.toList place ↔ IsLineFeed text place := by
  rw [IsLineFeed, getElem?_toUTF8, getElem?_bytes_eq_lineFeed_iff]

theorem ncard_lineFeeds (text : String) (offset : Nat) :
    {place | LineFeedAt text.toList place ∧ place < offset}.ncard = Nat.count (IsLineFeed text) offset := by
  have hset : {place | LineFeedAt text.toList place ∧ place < offset} =
      ((Finset.range offset).filter (IsLineFeed text) : Set Nat) := by
    ext place
    simp [lineFeedAt_iff_isLineFeed, and_comm]
  rw [hset, Set.ncard_coe_finset, Nat.count_eq_card_filter_range]

theorem isGreatest_lineStart (text : String) (offset : Nat) :
    IsGreatest (lineStarts text.toList offset) (lineStart text offset) := by
  obtain ⟨hle, hfeed, hlast⟩ := Nat.findGreatest_eq_iff.1 (rfl : lineStart text offset = lineStart text offset)
  constructor
  · refine ⟨hle, ?_⟩
    by_cases hzero : lineStart text offset = 0
    · exact .inl hzero
    · obtain ⟨hpos, hplace⟩ := hfeed hzero
      exact .inr ⟨lineStart text offset - 1, lineFeedAt_iff_isLineFeed.2 hplace, by omega⟩
  · intro start hstart
    obtain ⟨hbound, rfl | ⟨place, hplace, rfl⟩⟩ := hstart
    · exact Nat.zero_le _
    · by_contra hlt
      exact hlast (Nat.not_le.1 hlt) hbound ⟨Nat.succ_pos _, lineFeedAt_iff_isLineFeed.1 hplace⟩

theorem lineStart_le (text : String) (offset : Nat) : lineStart text offset ≤ offset :=
  (isGreatest_lineStart text offset).1.1

/-! ## The order of the numbers -/

theorem lineNumber_mono (text : String) {first second : Nat} (h : first ≤ second) :
    lineNumber text first ≤ lineNumber text second :=
  Nat.add_le_add_left (Nat.count_monotone _ h) 1

/-- Offsets on the same line are counted from the same place. -/
theorem lineStart_eq_of_lineNumber_eq {text : String} {first second : Nat} (h : first ≤ second)
    (hline : lineNumber text first = lineNumber text second) : lineStart text first = lineStart text second := by
  obtain ⟨⟨hle, hsecond⟩, hlast⟩ := isGreatest_lineStart text second
  -- the line of the second offset starts no later than at the first, or a line feed would be between them
  have hearly : lineStart text second ≤ first := by
    rcases hsecond with hzero | ⟨place, hplace, hstart⟩
    · omega
    · by_contra hlate
      have hbefore := Nat.count_monotone (IsLineFeed text) (show first ≤ place by omega)
      have hafter := Nat.count_strict_mono (lineFeedAt_iff_isLineFeed.1 hplace) (show place < second by omega)
      simp only [lineNumber] at hline
      omega
  refine le_antisymm (hlast ?_) ((isGreatest_lineStart text first).2 ⟨hearly, hsecond⟩)
  obtain ⟨hbound, hfirst⟩ := (isGreatest_lineStart text first).1
  exact ⟨Nat.le_trans hbound h, hfirst⟩

/-- A later offset is on a later line, or in a later column of the same line. -/
theorem numbers_lt (text : String) {first second : Nat} (h : first < second) :
    lineNumber text first < lineNumber text second ∨
      lineNumber text first = lineNumber text second ∧ columnNumber text first < columnNumber text second := by
  rcases Nat.lt_or_eq_of_le (lineNumber_mono text (Nat.le_of_lt h)) with hlt | heq
  · exact .inl hlt
  · have hstart := lineStart_eq_of_lineNumber_eq (Nat.le_of_lt h) heq
    have hle := lineStart_le text first
    refine .inr ⟨heq, ?_⟩
    rw [columnNumber, columnNumber, ← hstart]
    omega

theorem fits_of_lt {text : String} {offset : Nat} (h : offset + 1 < UInt32.size) : Fits text offset := by
  have hcount := Nat.count_le (p := IsLineFeed text) (n := offset)
  constructor
  · rw [lineNumber]
    omega
  · rw [columnNumber]
    omega

/-! ## The positions of a line index -/

namespace LineIndex

theorem toNat_line_position (text : String) (offset : Nat) :
    ((ofText text).position offset).line.toNat = lineNumber text offset % UInt32.size := by
  rw [(standsAt_position text offset).line, ncard_lineFeeds, Nat.toUInt32_eq, UInt32.toNat_ofNat', lineNumber]

theorem toNat_column_position (text : String) (offset : Nat) :
    ((ofText text).position offset).column.toNat = columnNumber text offset % UInt32.size := by
  obtain ⟨start, hstart, hcolumn⟩ := (standsAt_position text offset).column
  rw [hcolumn, hstart.unique (isGreatest_lineStart text offset), Nat.toUInt32_eq, UInt32.toNat_ofNat', columnNumber]

theorem position_precedes {text : String} {first second : Nat} (hfirst : Fits text first)
    (hsecond : Fits text second) (h : first < second) :
    ((ofText text).position first).Precedes ((ofText text).position second) := by
  unfold Position.Precedes
  rw [UInt32.lt_iff_toNat_lt, UInt32.lt_iff_toNat_lt, ← UInt32.toNat_inj, toNat_line_position,
    toNat_line_position, toNat_column_position, toNat_column_position, Nat.mod_eq_of_lt hfirst.1,
    Nat.mod_eq_of_lt hfirst.2, Nat.mod_eq_of_lt hsecond.1, Nat.mod_eq_of_lt hsecond.2]
  exact numbers_lt text h

theorem not_precedes_self (position : Position) : ¬position.Precedes position := by
  simp [Position.Precedes]

/-- The position of an offset has the line and the column that are counted from the bytes, in 32 bits, and the
start of its line is in the index and not past the offset. As long as the numbers fit, as they do up to a bound,
positions are in the order of their offsets, and different offsets have different positions. -/
theorem position_counts (text : String) :
    (∀ offset, ((ofText text).position offset).line.toNat = lineNumber text offset % UInt32.size ∧
        ((ofText text).position offset).column.toNat = columnNumber text offset % UInt32.size ∧
        ∃ start, (ofText text).starts[(ofText text).lineAt offset]? = some start ∧ start ≤ offset) ∧
      (∀ offset, offset + 1 < UInt32.size → Fits text offset) ∧
      (∀ first second, Fits text first → Fits text second → first < second →
        ((ofText text).position first).Precedes ((ofText text).position second)) ∧
      Set.InjOn (ofText text).position {offset | Fits text offset} := by
  refine ⟨fun offset => ⟨toNat_line_position text offset, toNat_column_position text offset, ?_⟩,
    fun offset => fits_of_lt, fun first second => position_precedes, ?_⟩
  · exact ⟨_, (lineAt_add_one text offset).2, (isGreatest_getLastD text offset).1.1⟩
  · intro first hfirst second hsecond heq
    rcases Nat.lt_trichotomy first second with hlt | hsame | hgt
    · exact absurd (heq ▸ position_precedes hfirst hsecond hlt) (not_precedes_self _)
    · exact hsame
    · exact absurd (heq ▸ position_precedes hsecond hfirst hgt) (not_precedes_self _)

/-- The second line is empty and starts at the offset 3, since the first character takes two bytes. The other offset
is past the end of the text. -/
theorem position_counts_past_end :
    (ofText "é\n\nb").position 3 = ⟨2, 1⟩ ∧ (ofText "é\n\nb").position 9 = ⟨3, 6⟩ ∧
      Fits "é\n\nb" 3 ∧ Fits "é\n\nb" 9 ∧
      ((ofText "é\n\nb").position 3).Precedes ((ofText "é\n\nb").position 9) := by
  obtain ⟨-, hfits, hordered, -⟩ := position_counts "é\n\nb"
  have hfirst := hfits 3 (by decide)
  have hsecond := hfits 9 (by decide)
  exact ⟨by decide +kernel, by decide +kernel, hfirst, hsecond, hordered 3 9 hfirst hsecond (by decide)⟩

end LineIndex

end SelectorLint
