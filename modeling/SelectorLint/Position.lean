import SelectorLint.Text.Bytes

/-!
# Lines and columns

A position in a text is a line and a column, both counted from 1 and kept in 32 bits. Columns count
bytes. Only a line feed ends a line. The line starts of a text are found once (`LineIndex.ofText`), and the
position of an offset by halving (`LineIndex.position`).
-/

namespace SelectorLint

open Text

/-- A line and a column. -/
structure Position where
  line : UInt32
  column : UInt32
  deriving DecidableEq, Repr

/-- The byte offsets at which the lines of a text start. -/
structure LineIndex where
  starts : Array Nat
  deriving DecidableEq, Repr

namespace LineIndex

/-- The offsets just after the line feeds of a text that begins at `offset`. -/
def afterLineFeeds (offset : Nat) : List Char → List Nat
  | [] => []
  | c :: rest =>
    let next := offset + c.utf8Size
    if c = '\n' then next :: afterLineFeeds next rest else afterLineFeeds next rest

/-- The line starts of a text. -/
def ofText (text : String) : LineIndex := ⟨(0 :: afterLineFeeds 0 text.toList).toArray⟩

/-- How many lines start no later than at `offset`, if it is known that there are at least `low` and at
most `high` of them. The line in the middle decides which half to go on with. -/
def linesUpTo (index : LineIndex) (offset low high : Nat) : Nat :=
  if low < high then
    let middle := low + (high - low) / 2
    if index.starts.getD middle 0 ≤ offset then index.linesUpTo offset (middle + 1) high
    else index.linesUpTo offset low middle
  else low
termination_by high - low

/-- The line that an offset is on, counted from 0. -/
def lineAt (index : LineIndex) (offset : Nat) : Nat :=
  index.linesUpTo offset 0 index.starts.size - 1

/-- The position of a byte offset, which may lie past the end of the text. -/
def position (index : LineIndex) (offset : Nat) : Position :=
  let line := index.lineAt offset
  ⟨(line + 1).toUInt32, (offset - index.starts.getD line 0 + 1).toUInt32⟩

end LineIndex

end SelectorLint
