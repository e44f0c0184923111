import SelectorLint.Text.Bytes

/-!
# Reading a text piece by piece

Readers take a text as a list of characters and give back the piece they read and the rest, which together are the
text again (`Splits`). They know nothing of offsets: a reader that fails says how many bytes past its own start the
trouble lies (`Trouble`), and `placed` gives each piece of a text its offset afterwards. What pieces were read from
is `written`. Both take the text of a piece as an argument, so that they serve lexemes of any sort.

Readers for comments and quoted texts (`commentTail`, `quotedTail`) stand here, since selectors and stylesheets
share them.
-/

namespace SelectorLint.Text

/-- A cause of failure, and the byte offset in the whole text that it is about. -/
structure Located (Cause : Type) where
  offset : Nat
  cause : Cause
  deriving DecidableEq, Repr

/-- A cause of failure, and how many bytes past the start of the reading it lies. -/
structure Trouble (Cause : Type) where
  distance : Nat
  cause : Cause
  deriving DecidableEq, Repr

variable {Cause Piece : Type}

/-- The same trouble seen from `bytes` earlier. -/
def Trouble.after (bytes : Nat) (trouble : Trouble Cause) : Trouble Cause :=
  { trouble with distance := bytes + trouble.distance }

/-- The trouble of a reading that started at `offset`. -/
def Trouble.locate (offset : Nat) (trouble : Trouble Cause) : Located Cause :=
  ⟨offset + trouble.distance, trouble.cause⟩

/-- What a lexer makes of a text: the pieces up to the end or up to the first trouble. The distance of
that trouble is counted from the end of the last piece. -/
structure Lexing (Piece Cause : Type) where
  pieces : List Piece
  trouble : Option (Trouble Cause)
  deriving DecidableEq, Repr

/-- A lexing with one more piece in front. -/
def Lexing.cons (piece : Piece) (lexing : Lexing Piece Cause) : Lexing Piece Cause :=
  { lexing with pieces := piece :: lexing.pieces }

/-- A piece of a text with the byte offset at which it starts. -/
structure Placed (Piece : Type) where
  offset : Nat
  piece : Piece
  deriving DecidableEq, Repr

/-- The pieces that follow each other from `offset` on, each with its own offset. -/
def placed (text : Piece → List Char) (offset : Nat) : List Piece → List (Placed Piece)
  | [] => []
  | piece :: rest => ⟨offset, piece⟩ :: placed text (offset + byteLength (text piece)) rest

/-- What pieces were read from: their texts, one after the other. -/
def written (text : Piece → List Char) (pieces : List Piece) : List Char := pieces.flatMap text

section Written

variable {text : Piece → List Char}

@[simp] theorem written_nil : written text [] = [] := rfl

@[simp] theorem written_cons (piece : Piece) (rest : List Piece) :
    written text (piece :: rest) = text piece ++ written text rest := rfl

@[simp] theorem written_append (front back : List Piece) :
    written text (front ++ back) = written text front ++ written text back := List.flatMap_append

end Written

/-! ## Delimited pieces -/

/-- The result of a reader with some more characters in front of what it read. -/
def prepend (front : List Char) (result : List Char × List Char) : List Char × List Char :=
  (front ++ result.1, result.2)

/-- What follows `/*`, up to and with the first `*/`, and the rest. -/
def commentTail : List Char → Option (List Char × List Char)
  | [] => none
  | '*' :: '/' :: rest => some (['*', '/'], rest)
  | c :: rest => (commentTail rest).map (prepend [c])

/-- What follows an opening quote, up to and with the closing one, and the rest. A backslash takes the
next character along. A line feed ends the reading without success unless `lineFeeds` are allowed. -/
def quotedTail (lineFeeds : Bool) (quote : Char) : List Char → Option (List Char × List Char)
  | [] => none
  | '\\' :: c :: rest => (quotedTail lineFeeds quote rest).map (prepend ['\\', c])
  | c :: rest =>
    if c = quote then some ([c], rest)
    else if c = '\n' && !lineFeeds then none
    else (quotedTail lineFeeds quote rest).map (prepend [c])

/-- The character opens and closes a quoted text. -/
def isQuote (c : Char) : Bool := c = '"' || c = '\''

theorem isQuote_iff {c : Char} : isQuote c ↔ c = '"' ∨ c = '\'' := by
  simp [isQuote]

/-! ## Nothing is lost -/

/-- A mapped result succeeds just when the result does. -/
theorem map_eq_ok_iff {Error Value Other : Type} {f : Value → Other} {result : Except Error Value}
    {other : Other} : result.map f = .ok other ↔ ∃ value, result = .ok value ∧ f value = other := by
  cases result <;> simp [Except.map]

/-- A text splits into a piece, which is not empty, and the rest. -/
structure Splits (write : Piece → List Char) (text : List Char) (piece : Piece) (rest : List Char) : Prop where
  text_ne_nil : write piece ≠ []
  append_eq : write piece ++ rest = text

theorem Splits.length_lt {write : Piece → List Char} {text rest : List Char} {piece : Piece}
    (h : Splits write text piece rest) : rest.length < text.length := by
  have := List.length_pos_iff.2 h.text_ne_nil
  simp only [← h.append_eq, List.length_append]
  omega

/-- What is left of a text is no longer than the text. -/
theorem length_le_of_append_eq {piece rest text : List Char} (h : piece ++ rest = text) :
    rest.length ≤ text.length := by
  simp [← h]

/-- A reading with something in front is not empty. -/
theorem ne_nil_of_map_prepend {Error : Type} {front piece rest : List Char}
    {result : Except Error (List Char × List Char)} (hfront : front ≠ [])
    (h : result.map (prepend front) = .ok (piece, rest)) : piece ≠ [] := by
  obtain ⟨value, -, heq⟩ := map_eq_ok_iff.1 h
  have hpiece : front ++ value.1 = piece := congrArg Prod.fst heq
  simp [← hpiece, hfront]

theorem commentTail_append {text piece rest : List Char}
    (h : commentTail text = some (piece, rest)) : piece ++ rest = text := by
  fun_induction commentTail text generalizing piece rest with
  | case1 => simp at h
  | case2 tail =>
    cases h
    rfl
  | case3 c tail _ ih =>
    obtain ⟨⟨body, rest'⟩, hbody, heq⟩ := Option.map_eq_some_iff.1 h
    simp only [prepend, Prod.mk.injEq] at heq
    obtain ⟨rfl, rfl⟩ := heq
    simp [ih hbody]

theorem quotedTail_append {lineFeeds : Bool} {quote : Char} {text piece rest : List Char}
    (h : quotedTail lineFeeds quote text = some (piece, rest)) : piece ++ rest = text := by
  fun_induction quotedTail lineFeeds quote text generalizing piece rest with
  | case1 => simp at h
  | case2 c tail ih =>
    obtain ⟨⟨body, rest'⟩, hbody, heq⟩ := Option.map_eq_some_iff.1 h
    simp only [prepend, Prod.mk.injEq] at heq
    obtain ⟨rfl, rfl⟩ := heq
    simp [ih hbody]
  | case3 =>
    cases h
    rfl
  | case4 => simp at h
  | case5 c tail _ _ _ ih =>
    obtain ⟨⟨body, rest'⟩, hbody, heq⟩ := Option.map_eq_some_iff.1 h
    simp only [prepend, Prod.mk.injEq] at heq
    obtain ⟨rfl, rfl⟩ := heq
    simp [ih hbody]

end SelectorLint.Text
