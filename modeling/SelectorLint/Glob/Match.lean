import SelectorLint.Glob.Expression

/-!
# Matching globs

A glob is matched against the bytes of a path. Expressions move a set of places in the path forward: from the
places where a match may have come to, they lead to those where it may be next (`Expression.advance`). A glob
matches a path if its expression leads from the start to the end (`Glob.isMatch`).
-/

namespace SelectorLint.Glob

/-! ## Sets of bytes -/

/-- The byte is in one of the ranges. -/
def inRanges (ranges : List (UInt8 × UInt8)) (byte : UInt8) : Bool :=
  ranges.any fun range => range.1 ≤ byte && byte ≤ range.2

/-- The set has the byte. -/
def ByteSet.contains : ByteSet → UInt8 → Bool
  | only expected, byte => byte = expected
  | any, _ => true
  | within negated ranges, byte => inRanges ranges byte != negated

/-! ## Places in a path -/

/-- A set of places in a path: whether the start is one, and whether the place after each byte is. -/
abbrev Places := List Bool

namespace Places

/-- The start of a path only. -/
def start (path : List UInt8) : Places := true :: path.map fun _ => false

/-- The places of two sets. -/
def union (first second : Places) : Places := List.zipWith (· || ·) first second

/-- The places one byte further, if the byte is in a set. -/
def afterOne (bytes : ByteSet) (path : List UInt8) (places : Places) : Places :=
  false :: List.zipWith (fun place byte => place && bytes.contains byte) places path

/-- The places any number of bytes further, if the bytes are in a set. -/
def afterRun (bytes : ByteSet) : List UInt8 → Places → Places
  | byte :: path, place :: next :: places =>
    place :: afterRun bytes path ((next || (place && bytes.contains byte)) :: places)
  | _, places => places

/-- The end of the path is one of the places. -/
def atEnd (places : Places) : Bool := places.getLast? = some true

end Places

mutual

/-- The places that an expression leads to. -/
def Expression.advance (path : List UInt8) (places : Places) : Expression → Places
  | .one bytes => places.afterOne bytes path
  | .optional bytes => places.union (places.afterOne bytes path)
  | .run bytes => places.afterRun bytes path
  | .choice branches => advanceAny path places branches

/-- The places that a sequence of expressions leads to. -/
def advanceAll (path : List UInt8) (places : Places) : List Expression → Places
  | [] => places
  | expression :: rest => advanceAll path (expression.advance path places) rest

/-- The places that one of several sequences leads to. -/
def advanceAny (path : List UInt8) (places : Places) : List (List Expression) → Places
  | [] => places.map fun _ => false
  | branch :: branches => (advanceAll path places branch).union (advanceAny path places branches)

end

/-- The glob matches a path. -/
def isMatch (glob : Glob) (path : String) : Bool :=
  let bytes := path.toUTF8.toList
  (advanceAll bytes (Places.start bytes) glob.expression).atEnd

end SelectorLint.Glob
