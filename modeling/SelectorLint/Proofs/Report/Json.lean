import SelectorLint.Document.Bare
import SelectorLint.Text.Reading

/-!
# A reader of JSON

What a program on the other side makes of a line: a reader of all of JSON, which knows nothing of reports.
A text is cut into tokens (`tokens?`), and these are put together to a value (`value?`). Members of an
object are kept in their order, also if a key comes twice.
-/

namespace SelectorLint.Json

open Text

/-- A JSON value. -/
inductive Value where
  | null
  | boolean (value : Bool)
  /-- The number `mantissa * 10 ^ exponent`. -/
  | number (mantissa exponent : Int)
  | text (value : String)
  | array (items : List Value)
  | object (members : List (String × Value))

/-! ## Texts -/

/-- The character that a letter after a backslash stands for. -/
def escaped? (c : Char) : Option Char :=
  match c with
  | '"' => some '"'
  | '\\' => some '\\'
  | '/' => some '/'
  | 'b' => some '\x08'
  | 'f' => some '\x0c'
  | 'n' => some '\n'
  | 'r' => some '\r'
  | 't' => some '\t'
  | _ => none

/-- The number that four digits in base sixteen stand for. -/
def unit? (digits : List Char) : Option Nat :=
  if digits.all Document.isHexDigit then some (Document.valueOf 16 digits) else none

/-- What stands between quotes, without escapes. Characters beyond 16 bits are escaped in two halves, and
control characters have to be escaped. -/
def unescape : List Char → Option (List Char)
  | [] => some []
  | '\\' :: 'u' :: d₁ :: d₂ :: d₃ :: d₄ :: rest => do
    let unit ← unit? [d₁, d₂, d₃, d₄]
    if 0xd800 ≤ unit && unit < 0xdc00 then
      match rest with
      | '\\' :: 'u' :: e₁ :: e₂ :: e₃ :: e₄ :: rest' => do
        let low ← unit? [e₁, e₂, e₃, e₄]
        if 0xdc00 ≤ low && low < 0xe000 then
          (unescape rest').map (Char.ofNat (0x10000 + (unit - 0xd800) * 0x400 + (low - 0xdc00)) :: ·)
        else none
      | _ => none
    else if unit.isValidChar then (unescape rest).map (Char.ofNat unit :: ·)
    else none
  | '\\' :: c :: rest => do
    let value ← escaped? c
    (unescape rest).map (value :: ·)
  | c :: rest => if 32 ≤ c.toNat && c ≠ '\\' then (unescape rest).map (c :: ·) else none

/-- What follows an opening quote, without the closing one and without escapes, and the rest. -/
def textTail? (text : List Char) : Option (String × List Char) := do
  let (piece, rest) ← quotedTail true '"' text
  let content ← unescape piece.dropLast
  return (String.ofList content, rest)

/-! ## Numbers and words -/

/-- The digits that a text starts with, at least one of them, and the rest. -/
def digits? (text : List Char) : Option (List Char × List Char) :=
  if (text.takeWhile Char.isDigit).isEmpty then none
  else some (text.takeWhile Char.isDigit, text.dropWhile Char.isDigit)

/-- The digits before the point, and the rest. There is no zero in front of other digits. -/
def whole? : List Char → Option (List Char × List Char)
  | '0' :: rest => some (['0'], rest)
  | text => digits? text

/-- The digits after the point, if there is one, and the rest. -/
def fraction? : List Char → Option (List Char × List Char)
  | '.' :: rest => digits? rest
  | text => some ([], text)

/-- The number that a text is, which has digits only. -/
def natural? (text : List Char) : Option Nat := do
  let (digits, rest) ← digits? text
  if rest.isEmpty then some (Nat.ofDigitChars 10 digits 0) else none

/-- The exponent at the end of a number. -/
def exponent? : List Char → Option Int
  | [] => some 0
  | mark :: text =>
    if mark = 'e' || mark = 'E' then
      match text with
      | '-' :: digits => (natural? digits).map fun value => -(value : Int)
      | '+' :: digits => (natural? digits).map fun value => (value : Int)
      | digits => (natural? digits).map fun value => (value : Int)
    else none

/-- The number that a text is, if it has no sign. -/
def unsigned? (text : List Char) : Option (Nat × Int) := do
  let (whole, rest) ← whole? text
  let (fraction, rest) ← fraction? rest
  let exponent ← exponent? rest
  return (Nat.ofDigitChars 10 (whole ++ fraction) 0, exponent - fraction.length)

/-- The value of a run of characters without quotes. -/
def bare? (run : List Char) : Option Value :=
  if run = ['n', 'u', 'l', 'l'] then some .null
  else if run = ['t', 'r', 'u', 'e'] then some (.boolean true)
  else if run = ['f', 'a', 'l', 's', 'e'] then some (.boolean false)
  else
    match run with
    | '-' :: text => (unsigned? text).map fun (mantissa, exponent) => .number (-mantissa) exponent
    | text => (unsigned? text).map fun (mantissa, exponent) => .number mantissa exponent

/-! ## Tokens -/

/-- A piece of a JSON text. -/
inductive Token where
  | openBrace
  | closeBrace
  | openBracket
  | closeBracket
  | comma
  | colon
  | scalar (value : Value)

/-- The token that a single character is. -/
def mark? (c : Char) : Option Token :=
  match c with
  | '{' => some .openBrace
  | '}' => some .closeBrace
  | '[' => some .openBracket
  | ']' => some .closeBracket
  | ',' => some .comma
  | ':' => some .colon
  | _ => none

/-- The characters of numbers and words. -/
def isBare (c : Char) : Bool := c.isAlphanum || c = '+' || c = '-' || c = '.'

/-- The characters that may stand between tokens. -/
def isSpace (c : Char) : Bool := c = ' ' || c = '\t' || c = '\n' || c = '\r'

/-- The first token of the text `c :: rest`, and what comes after it. -/
def next? (c : Char) (rest : List Char) : Option (Token × List Char) :=
  if c = '"' then (textTail? rest).map fun (text, rest') => (.scalar (.text text), rest')
  else
    match mark? c with
    | some token => some (token, rest)
    | none =>
      (bare? (c :: rest.takeWhile isBare)).map fun value => (.scalar value, rest.dropWhile isBare)

theorem length_le_of_next? {c : Char} {rest rest' : List Char} {token : Token}
    (h : next? c rest = some (token, rest')) : rest'.length ≤ rest.length := by
  unfold next? at h
  split at h
  · rcases Option.map_eq_some_iff.1 h with ⟨⟨text, after⟩, htext, heq⟩
    cases heq
    unfold textTail? at htext
    rcases Option.bind_eq_some_iff.1 htext with ⟨⟨piece, after'⟩, hpiece, hcontent⟩
    rcases Option.bind_eq_some_iff.1 hcontent with ⟨content, -, heq⟩
    cases heq
    exact length_le_of_append_eq (quotedTail_append hpiece)
  · split at h
    · cases h
      exact Nat.le_refl _
    · rcases Option.map_eq_some_iff.1 h with ⟨value, -, heq⟩
      cases heq
      exact length_le_of_append_eq List.takeWhile_append_dropWhile

/-- The tokens of a text. -/
def tokens? (text : List Char) : Option (List Token) :=
  match text with
  | [] => some []
  | c :: rest =>
    if isSpace c then tokens? rest
    else
      match _h : next? c rest with
      | none => none
      | some (token, rest') => (tokens? rest').map (token :: ·)
termination_by text.length
decreasing_by
  · simp
  · have := length_le_of_next? ‹_›
    simp only [List.length_cons]
    omega

theorem tokens?_cons {c : Char} {rest rest' : List Char} {token : Token} (hspace : ¬isSpace c)
    (h : next? c rest = some (token, rest')) : tokens? (c :: rest) = (tokens? rest').map (token :: ·) := by
  rw [tokens?, if_neg hspace]
  split
  next hnone =>
    rw [h] at hnone
    cases hnone
  next hsome =>
    rw [h] at hsome
    cases hsome
    rfl

theorem tokens?_mark {c : Char} {token : Token} (hspace : ¬isSpace c) (hquote : c ≠ '"')
    (h : mark? c = some token) (rest : List Char) :
    tokens? (c :: rest) = (tokens? rest).map (token :: ·) := by
  apply tokens?_cons hspace
  rw [next?, if_neg hquote, h]

theorem tokens?_quote {rest rest' : List Char} {text : String} (h : textTail? rest = some (text, rest')) :
    tokens? ('"' :: rest) = (tokens? rest').map (.scalar (.text text) :: ·) := by
  apply tokens?_cons (by decide)
  rw [next?, if_pos rfl, h]
  rfl

/-- The characters of numbers and words do not start anything else. -/
theorem not_isSpace_of_isBare {c : Char} (h : isBare c) : ¬isSpace c ∧ c ≠ '"' ∧ mark? c = none := by
  refine ⟨?_, ?_, ?_⟩
  · intro hspace
    simp only [isSpace, Bool.or_eq_true, decide_eq_true_eq] at hspace
    rcases hspace with ((rfl | rfl) | rfl) | rfl <;> exact absurd h (by decide)
  · rintro rfl
    exact absurd h (by decide)
  · unfold mark?
    split
    case h_7 => rfl
    all_goals exact absurd h (by decide)

/-- A run of such characters is one token, if another character comes after it. -/
theorem tokens?_bare {run rest : List Char} {value : Value} {stop : Char} (hrun : run.all isBare)
    (hvalue : bare? run = some value) (hstop : ¬isBare stop) :
    tokens? (run ++ stop :: rest) = (tokens? (stop :: rest)).map (.scalar value :: ·) := by
  cases run with
  | nil => cases hvalue
  | cons c others =>
    obtain ⟨hc, hothers⟩ := List.forall_mem_cons.1 (List.all_eq_true.1 hrun)
    obtain ⟨hspace, hquote, hmark⟩ := not_isSpace_of_isBare hc
    rw [List.cons_append]
    apply tokens?_cons hspace
    rw [next?, if_neg hquote, hmark, List.takeWhile_append_of_pos hothers,
      List.dropWhile_append_of_pos hothers, List.takeWhile_cons_of_neg hstop,
      List.dropWhile_cons_of_neg hstop, List.append_nil, hvalue]
    rfl

/-! ## Values -/

/-- What was read off the front of some tokens, and the tokens that are left, which are fewer. -/
abbrev Reading (Result : Type) (tokens : List Token) : Type :=
  Option (Result × { rest : List Token // rest.length < tokens.length })

mutual

/-- The value that the tokens start with. -/
def value? (tokens : List Token) : Reading Value tokens :=
  match tokens with
  | .scalar value :: rest => some (value, ⟨rest, by simp⟩)
  | .openBracket :: .closeBracket :: rest =>
    some (.array [], ⟨rest, by simp only [List.length_cons]; omega⟩)
  | .openBracket :: rest => do
    let (items, ⟨after, hafter⟩) ← items? rest
    return (.array items, ⟨after, by simp only [List.length_cons]; omega⟩)
  | .openBrace :: .closeBrace :: rest =>
    some (.object [], ⟨rest, by simp only [List.length_cons]; omega⟩)
  | .openBrace :: rest => do
    let (members, ⟨after, hafter⟩) ← members? rest
    return (.object members, ⟨after, by simp only [List.length_cons]; omega⟩)
  | _ => none
termination_by (tokens.length, 0)

/-- The items of an array up to its closing bracket, at least one. -/
def items? (tokens : List Token) : Reading (List Value) tokens := do
  let (first, ⟨after, hafter⟩) ← value? tokens
  match after, hafter with
  | .closeBracket :: rest, hafter =>
    some ([first], ⟨rest, by simp only [List.length_cons] at hafter; omega⟩)
  | .comma :: rest, hafter => do
    have hrest : rest.length < tokens.length := by simp only [List.length_cons] at hafter; omega
    let (others, ⟨final, hfinal⟩) ← items? rest
    return (first :: others, ⟨final, by omega⟩)
  | _, _ => none
termination_by (tokens.length, 1)

/-- The members of an object up to its closing brace, at least one. -/
def members? (tokens : List Token) : Reading (List (String × Value)) tokens :=
  match tokens with
  | .scalar (.text key) :: .colon :: start => do
    let (first, ⟨after, hafter⟩) ← value? start
    match after, hafter with
    | .closeBrace :: rest, hafter =>
      some ([(key, first)], ⟨rest, by simp only [List.length_cons] at hafter ⊢; omega⟩)
    | .comma :: rest, hafter => do
      have hrest : rest.length < start.length := by simp only [List.length_cons] at hafter; omega
      let (others, ⟨final, hfinal⟩) ← members? rest
      return ((key, first) :: others, ⟨final, by simp only [List.length_cons]; omega⟩)
    | _, _ => none
  | _ => none
termination_by (tokens.length, 1)

end

section Members

variable {key : String} {value : Value} {rest : List Token}

theorem members?_last :
    ∃ h, members? (.scalar (.text key) :: .colon :: .scalar value :: .closeBrace :: rest) =
      some ([(key, value)], ⟨rest, h⟩) := by
  rw [members?, value?]
  exact ⟨_, rfl⟩

theorem members?_comma {others : List (String × Value)} {final : List Token}
    (h : ∃ hfinal, members? rest = some (others, ⟨final, hfinal⟩)) :
    ∃ hfinal, members? (.scalar (.text key) :: .colon :: .scalar value :: .comma :: rest) =
      some ((key, value) :: others, ⟨final, hfinal⟩) := by
  obtain ⟨hfinal, heq⟩ := h
  refine ⟨by simp only [List.length_cons]; omega, ?_⟩
  rw [members?, value?]
  simp only [Option.bind_eq_bind, Option.bind_some, heq]
  rfl

end Members

/-- The value that a text stands for. -/
def decode? (text : List Char) : Option Value := do
  let tokens ← tokens? text
  let (value, ⟨rest, _⟩) ← value? tokens
  if rest.isEmpty then some value else none

example : decode? "[1.5e-2, \"\\ud83d\\ude00\", null]".toList =
    some (.array [.number 15 (-3), .text "😀", .null]) := by
  cbv

end SelectorLint.Json
