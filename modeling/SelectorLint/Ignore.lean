import SelectorLint.Glob.Match
import SelectorLint.Glob.Set
import SelectorLint.Text.Blank

/-!
# Ignore lists

A file of ignore rules has one glob on each line, which `IgnoreRule.ofLine?` reads. The last rule that matches an
entry decides (`IgnoreList.verdict?`): either the entry is ignored, or, if the rule starts with an exclamation
mark, it is kept. If the globs of a file make a set that cannot be used, the file says nothing
(`IgnoreList.ofBytes`).
-/

namespace SelectorLint

/-- What a rule says of the entries it matches. -/
inductive Verdict where
  | ignored
  | kept
  deriving DecidableEq, Repr

/-- A rule of an ignore list. -/
structure IgnoreRule where
  glob : Glob
  verdict : Verdict
  /-- The rule is about directories only. -/
  directoriesOnly : Bool
  deriving Repr

namespace IgnoreRule

/-- The line without blanks at its end, unless the last of them is escaped. -/
def trimmed (line : List Char) : List Char :=
  if [' ', '\\'].isPrefixOf line.reverse then line else Text.trimEnd line

/-- The verdict of a line, the rest of it, and whether that is about the whole path. -/
def opening (line : List Char) : Verdict × List Char × Bool :=
  let anchored (verdict : Verdict) (rest : List Char) : Verdict × List Char × Bool :=
    match rest with
    | '/' :: rest => (verdict, rest, true)
    | _ => (verdict, rest, false)
  match line with
  | '\\' :: '!' :: rest => (.ignored, '!' :: rest, false)
  | '\\' :: '#' :: rest => (.ignored, '#' :: rest, false)
  | '!' :: rest => anchored .kept rest
  | _ => anchored .ignored line

/-- The pattern without the slash at its end, which says that it is about directories only. A backslash
before that slash goes with it. -/
def closing (pattern : List Char) : List Char × Bool :=
  match pattern.reverse with
  | '/' :: '\\' :: rest => (rest.reverse, true)
  | '/' :: rest => (rest.reverse, true)
  | _ => (pattern, false)

/-- The pattern as a glob for whole paths. One without a slash matches at any depth, and one for all that is
in a directory does not match the directory. -/
def globText (anchored : Bool) (pattern : List Char) : List Char :=
  let deep := anchored || pattern.contains '/' || pattern = ['*', '*']
  let pattern := if deep then pattern else '*' :: '*' :: '/' :: pattern
  if ['*', '*', '/'].isPrefixOf pattern.reverse then pattern ++ ['/', '*'] else pattern

/-- The rule on a line. Comments, empty lines and lines that are no globs are none. -/
def ofLine? (line : List Char) : Option IgnoreRule :=
  if line.head? = some '#' || (trimmed line).isEmpty then none
  else
    let (verdict, pattern, anchored) := opening (trimmed line)
    let (pattern, directoriesOnly) := closing pattern
    match Glob.parseWith ⟨true, true⟩ (String.ofList (globText anchored pattern)) with
    | .ok glob => some ⟨glob, verdict, directoriesOnly⟩
    | .error _ => none

/-- The rule matches an entry. -/
def isMatch (rule : IgnoreRule) (path : String) (isDirectory : Bool) : Bool :=
  (!rule.directoriesOnly || isDirectory) && rule.glob.isMatch path

end IgnoreRule

/-- The rules of a file, in their order. -/
abbrev IgnoreList := List IgnoreRule

namespace IgnoreList

/-- The lines of a file, without their ends. A carriage return right before a line feed belongs to the end. -/
def lines : List UInt8 → List (List UInt8)
  | [] => []
  | byte :: rest =>
    if byte = 10 then [] :: lines rest
    else if byte = 13 && rest.head? = some 10 then lines rest
    else
      match lines rest with
      | [] => [[byte]]
      | line :: more => (byte :: line) :: more

/-- The text of a line, if it is text at all. -/
def lineText? (line : List UInt8) : Option (List Char) :=
  (String.fromUTF8? ⟨line.toArray⟩).map String.toList

/-- The first lines of a file that are text. -/
def textLines : List (List UInt8) → List (List Char)
  | [] => []
  | line :: rest =>
    match lineText? line with
    | some text => text :: textLines rest
    | none => []

/-- The lines without byte order marks at the start of the first one. -/
def withoutMark : List (List Char) → List (List Char)
  | [] => []
  | first :: rest => first.dropWhile (· = '\uFEFF') :: rest

/-- The rules on the lines of a file. -/
def rulesOf (content : ByteArray) : List IgnoreRule :=
  (withoutMark (textLines (lines content.toList))).filterMap IgnoreRule.ofLine?

/-- The rules that a file holds, if they can be used together. -/
def ofBytes (content : ByteArray) : IgnoreList :=
  let rules := rulesOf content
  if (Glob.setFault? (rules.map IgnoreRule.glob)).isSome then [] else rules

/-- What the list says of an entry. -/
def verdict? (rules : IgnoreList) (path : String) (isDirectory : Bool) : Option Verdict :=
  (rules.reverse.find? fun rule => rule.isMatch path isDirectory).map IgnoreRule.verdict

end IgnoreList

end SelectorLint
