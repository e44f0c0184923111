/-!
# Glob patterns

A glob is read into a list of tokens (`Glob.parse`), character by character (`tokensFrom`). Two stars stand for a
run of whole directories where slashes or the ends of the pattern set them off (`Builder.twoStars`); elsewhere they
are just two stars. Braces hold alternatives, which may be nested, and brackets hold sets of characters
(`classBody`).
-/

namespace SelectorLint.Glob

/-- A part of a glob. -/
inductive Token where
  | literal (c : Char)
  /-- One byte, written `?`. -/
  | anyByte
  /-- Any run of bytes, written `*`. -/
  | anyRun
  /-- Any directories at the start, written with two stars and a slash. -/
  | leadingTree
  /-- A slash and anything after it, written with a slash and two stars. -/
  | trailingTree
  /-- Any directories between two slashes. -/
  | innerTree
  /-- A character in one of the ranges, or in none of them. -/
  | oneOf (negated : Bool) (ranges : List (Char × Char))
  | alternatives (branches : List (List Token))
  deriving Repr, Inhabited

/-- Why a text is no glob. -/
inductive Fault where
  | unclosedClass
  | invalidRange (first last : Char)
  | unopenedAlternates
  | unclosedAlternates
  | danglingEscape
  deriving DecidableEq, Repr

/-- The wording of a fault. -/
def Fault.message : Fault → String
  | unclosedClass => "unclosed character class; missing ']'"
  | invalidRange first last =>
    "invalid range; '" ++ first.toString ++ "' > '" ++ last.toString ++ "'"
  | unopenedAlternates =>
    "unopened alternate group; missing '\x7b' (maybe escape '\x7d' with '[\x7d]'?)"
  | unclosedAlternates =>
    "unclosed alternate group; missing '\x7d' (maybe escape '\x7b' with '[\x7b]'?)"
  | danglingEscape => "dangling '\\'"

/-! ## Sets of characters -/

/-- The ranges of a set of characters that is being read, the latest first. -/
structure ClassReading where
  ranges : List (Char × Char)
  /-- After a character and a hyphen: the next character ends a range. -/
  inRange : Bool

/-- Takes a character of a set. -/
def ClassReading.take (reading : ClassReading) (c : Char) : Except Fault ClassReading :=
  match reading.inRange, reading.ranges with
  | true, (first, _) :: earlier =>
    if c < first then .error (.invalidRange first c) else .ok ⟨(first, c) :: earlier, false⟩
  | _, ranges => .ok ⟨(c, c) :: ranges, false⟩

/-- The ranges in order. A hyphen at the end stands for itself. -/
def ClassReading.finish (reading : ClassReading) : List (Char × Char) :=
  (if reading.inRange then ('-', '-') :: reading.ranges else reading.ranges).reverse

/-- The set of characters up to its closing bracket, and the rest. There has been a character before. -/
def classRest (reading : ClassReading) : List Char → Except Fault (List (Char × Char) × List Char)
  | [] => .error .unclosedClass
  | c :: rest =>
    if c = ']' then .ok (reading.finish, rest)
    else if c = '-' && !reading.inRange then classRest { reading with inRange := true } rest
    else
      match reading.take c with
      | .error fault => .error fault
      | .ok taken => classRest taken rest

/-- A set of characters up to its closing bracket, and the rest. A bracket or hyphen that comes first
stands for itself. -/
def classFrom (negated : Bool) : List Char → Except Fault (Token × List Char)
  | [] => .error .unclosedClass
  | c :: rest => (classRest ⟨[(c, c)], false⟩ rest).map fun (ranges, after) =>
      (.oneOf negated ranges, after)

/-- What follows an opening bracket: the set of characters, and the rest. -/
def classBody : List Char → Except Fault (Token × List Char)
  | '!' :: rest => classFrom true rest
  | '^' :: rest => classFrom true rest
  | text => classFrom false text

theorem length_classRest {reading : ClassReading} {text rest : List Char}
    {ranges : List (Char × Char)} (h : classRest reading text = .ok (ranges, rest)) :
    rest.length < text.length := by
  fun_induction classRest reading text with
  | case1 => cases h
  | case2 => cases h; simp
  | case3 _ _ _ _ _ ih => exact Nat.lt_succ_of_lt (ih h)
  | case4 => cases h
  | case5 _ _ _ _ _ _ _ ih => exact Nat.lt_succ_of_lt (ih h)

theorem length_classFrom {negated : Bool} {text rest : List Char} {token : Token}
    (h : classFrom negated text = .ok (token, rest)) : rest.length < text.length := by
  unfold classFrom at h
  split at h
  · cases h
  next c inner =>
    cases hclass : classRest ⟨[(c, c)], false⟩ inner with
    | error fault => simp [hclass, Except.map] at h
    | ok result =>
      simp only [hclass, Except.map, Except.ok.injEq, Prod.mk.injEq] at h
      have := length_classRest hclass
      simp only [← h.2, List.length_cons]
      omega

theorem length_classBody {text rest : List Char} {token : Token}
    (h : classBody text = .ok (token, rest)) : rest.length < text.length := by
  unfold classBody at h
  split at h
  · exact Nat.lt_succ_of_lt (length_classFrom h)
  · exact Nat.lt_succ_of_lt (length_classFrom h)
  · exact length_classFrom h

/-! ## Building the tokens -/

/-- Braces that are open: the tokens before them, and the alternatives that are complete, both with the latest
first. -/
structure Braces where
  before : List Token
  branches : List (List Token)

/-- A glob of which a part has been read. -/
structure Builder where
  /-- The tokens of the alternative that is being read, the latest first. -/
  current : List Token
  /-- The open braces, the innermost first. -/
  braces : List Braces
  /-- The last character that was read. -/
  previous : Option Char

namespace Builder

/-- Before the first character. -/
def new : Builder := ⟨[], [], none⟩

/-- Adds tokens, the last character of which is `c`. -/
def push (builder : Builder) (c : Char) (tokens : List Token) : Builder :=
  { builder with current := tokens.reverse ++ builder.current, previous := some c }

/-- An opening brace. -/
def openBraces (builder : Builder) : Builder :=
  ⟨[], ⟨builder.current, []⟩ :: builder.braces, some '{'⟩

/-- A comma. Outside braces it stands for itself. -/
def comma (builder : Builder) : Builder :=
  match builder.braces with
  | [] => builder.push ',' [.literal ',']
  | braces :: outer =>
    ⟨[], { braces with branches := builder.current.reverse :: braces.branches } :: outer, some ','⟩

/-- A closing brace. -/
def closeBraces (builder : Builder) : Except Fault Builder :=
  match builder.braces with
  | [] => .error .unopenedAlternates
  | braces :: outer =>
    let branches := (builder.current.reverse :: braces.branches).reverse
    .ok ⟨.alternatives branches :: braces.before, outer, some '}'⟩

/-- Puts directories at the end or in the middle in place of the slash before them. After directories at
the start or at the end there is nothing to add. -/
def joinTree (builder : Builder) (c : Char) (tree : Token) : Builder :=
  match builder.current with
  | .leadingTree :: _ | .trailingTree :: _ => { builder with previous := some c }
  | tokens => { builder with current := tree :: tokens.tail, previous := some c }

/-- Two stars at the start of an alternative or after a slash are set off there. -/
def treeCanStart (builder : Builder) : Bool :=
  match builder.previous with
  | some '/' => true
  | some ',' | some '{' => !builder.braces.isEmpty
  | _ => false

/-- Two stars, and the rest of the text after them. -/
def twoStars (builder : Builder) (rest : List Char) : Builder × List Char :=
  let plain := (builder.push '*' [.anyRun, .anyRun], rest)
  if builder.current.isEmpty then
    match rest with
    | [] => (builder.push '*' [.leadingTree], [])
    | '/' :: after => (builder.push '/' [.leadingTree], after)
    | _ => plain
  else if builder.treeCanStart then
    match rest with
    | [] => (builder.joinTree '*' .trailingTree, rest)
    | '/' :: after => (builder.joinTree '/' .innerTree, after)
    | c :: _ =>
      if (c = ',' || c = '}') && !builder.braces.isEmpty then
        (builder.joinTree '*' .trailingTree, rest)
      else plain
  else plain

theorem length_twoStars (builder : Builder) (rest : List Char) :
    (builder.twoStars rest).2.length ≤ rest.length := by
  unfold twoStars
  dsimp only
  repeat' split
  all_goals simp

end Builder

/-- How a glob is to be understood. -/
structure Rules where
  /-- Neither `*` nor `?` stands for a slash. -/
  separated : Bool
  /-- A bracket that is never closed stands for itself, and so do all brackets after it. -/
  looseBrackets : Bool
  deriving DecidableEq, Repr

/-- Reads on from a builder. `brackets` says whether brackets still hold sets of characters. -/
def tokensFrom (rules : Rules) (brackets : Bool) (builder : Builder) (text : List Char) :
    Except Fault Builder :=
  match text with
  | [] => .ok builder
  | '?' :: rest => tokensFrom rules brackets (builder.push '?' [.anyByte]) rest
  | '*' :: '*' :: rest =>
    tokensFrom rules brackets (builder.twoStars rest).1 (builder.twoStars rest).2
  | '*' :: rest => tokensFrom rules brackets (builder.push '*' [.anyRun]) rest
  | '{' :: rest => tokensFrom rules brackets builder.openBraces rest
  | '}' :: rest =>
    match builder.closeBraces with
    | .error fault => .error fault
    | .ok closed => tokensFrom rules brackets closed rest
  | ',' :: rest => tokensFrom rules brackets builder.comma rest
  | ['\\'] => .error .danglingEscape
  | '\\' :: c :: rest => tokensFrom rules brackets (builder.push c [.literal c]) rest
  | c :: rest =>
    if c = '[' && brackets then
      match _h : classBody rest with
      | .ok (token, after) => tokensFrom rules brackets (builder.push ']' [token]) after
      | .error fault =>
        if fault = .unclosedClass && rules.looseBrackets then
          tokensFrom rules false (builder.push '[' [.literal '[']) rest
        else .error fault
    else tokensFrom rules brackets (builder.push c [.literal c]) rest
termination_by text.length
decreasing_by
  all_goals simp only [List.length_cons]
  · omega
  · have := builder.length_twoStars rest
    omega
  · omega
  · omega
  · omega
  · omega
  · omega
  · have := length_classBody ‹_›
    omega
  · omega
  · omega

/-- The tokens of a glob. -/
def parseTokens (rules : Rules) (text : String) : Except Fault (List Token) :=
  match tokensFrom rules true .new text.toList with
  | .error fault => .error fault
  | .ok builder => if builder.braces.isEmpty then .ok builder.current.reverse else .error .unclosedAlternates

end SelectorLint.Glob

namespace SelectorLint

/-- A glob that has been read. -/
structure Glob where
  tokens : List Glob.Token
  /-- Neither `*` nor `?` stands for a slash. -/
  separated : Bool
  deriving Repr, Inhabited

namespace Glob

/-- Reads a glob by the given rules. -/
def parseWith (rules : Rules) (text : String) : Except Fault Glob :=
  (parseTokens rules text).map fun tokens => ⟨tokens, rules.separated⟩

/-- Reads a glob in which stars also stand for slashes. -/
def parse (text : String) : Except Fault Glob := parseWith ⟨false, false⟩ text

/-- What is said of a text that is no glob. -/
def describe (text : String) (fault : Fault) : String :=
  "error parsing glob '" ++ text ++ "': " ++ fault.message

end Glob

end SelectorLint
