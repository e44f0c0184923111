import SelectorLint.Stylesheet.Scan

/-!
# Stylesheets as forests

A stylesheet of statements and blocks as a structure: the forest of its items, with the white space
around them (`Forest`). The texts in it are without the characters that mean something to the reader of
stylesheets (`marks`), and carry the proof of that.

A forest can be written out (`Forest.print`), and it has style rules (`Forest.rules`): for each of them
one is told what is written before it and which blocks are around it. So the offset of a rule is the
length of what comes before, its parent is the innermost block, and its depth the number of style rules
among the blocks.
-/

namespace SelectorLint.Stylesheet

open Text

/-- The characters that mean something to the reader of stylesheets. The sign of an interpolation is
not among them, since its brace is. -/
def marks : List Char := ['"', '\'', '/', '(', ')', '[', ']', '{', '}', ';']

/-- White space, or nothing. -/
structure Gap where
  text : List Char
  blank : ∀ c ∈ text, isBlank c

/-- The text has no marks, and neither starts nor ends with white space. -/
structure IsPhrase (text : List Char) : Prop where
  unmarked : ∀ c ∈ text, c ∉ marks
  starts : ∃ c rest, text = c :: rest ∧ ¬isBlank c
  ends : ∃ front c, text = front ++ [c] ∧ ¬isBlank c

/-- A selector, a declaration, or the like. -/
structure Phrase where
  text : List Char
  isPhrase : IsPhrase text

/-- The name of an at-rule. -/
structure Name where
  text : List Char
  ne_nil : text ≠ []
  characters : ∀ c ∈ text, isNameCharacter c

/-- What follows the name of an at-rule, after some white space. -/
structure Parameters where
  gap : Gap
  gap_ne_nil : gap.text ≠ []
  phrase : Phrase

/-- What stands before the brace of a block. -/
inductive Heading where
  | rule (selector : Phrase) (hat : selector.text.head? ≠ some '@')
      (hcolon : selector.text.getLast? ≠ some ':')
  | atRule (name : Name) (parameters : Option Parameters)
  /-- The name of nested properties, before its colon. -/
  | property (name : Phrase) (hat : name.text.head? ≠ some '@')

/-- What stands before a semicolon. -/
inductive Statement where
  | declaration (phrase : Phrase)
  | atRule (phrase : Phrase)

/-- Items one after the other, each with the white space before it, and the white space at the end. -/
inductive Forest where
  | done (gap : Gap)
  | statement (gap : Gap) (content : Statement) (rest : Forest)
  | block (gap : Gap) (heading : Heading) (items : Forest) (rest : Forest)

/-! ## Writing a forest -/

/-- How the parameters of an at-rule are written. -/
def Parameters.text (parameters : Parameters) : List Char :=
  parameters.gap.text ++ parameters.phrase.text

/-- How a heading is written. -/
def Heading.text : Heading → List Char
  | rule selector _ _ => selector.text
  | atRule name none => '@' :: name.text
  | atRule name (some parameters) => '@' :: name.text ++ parameters.text
  | property name _ => name.text ++ [':']

/-- How a statement is written. -/
def Statement.text : Statement → List Char
  | declaration phrase => phrase.text
  | atRule phrase => '@' :: phrase.text

/-- How a forest is written. -/
def Forest.print : Forest → List Char
  | done gap => gap.text
  | statement gap content rest => gap.text ++ (content.text ++ ';' :: print rest)
  | block gap heading items rest =>
    gap.text ++ (heading.text ++ ' ' :: '{' :: (print items ++ '}' :: print rest))

/-! ## Rules of a forest -/

/-- The sort of block that a heading opens. -/
def Heading.block : Heading → Block
  | rule _ _ _ => .rule
  | atRule name _ => .atRule (String.ofList name.text)
  | property _ _ => .property

/-- What a rule directly in these blocks has for a parent; the innermost block comes first. -/
def parentIn : List Heading → Parent
  | [] => .root
  | .atRule name _ :: _ => .atRule (String.ofList name.text)
  | .rule _ _ _ :: _ => .rule
  | .property _ _ :: _ => .rule

/-- The heading is that of a style rule. -/
def Heading.isRule : Heading → Bool
  | rule _ _ _ => true
  | atRule _ _ | property _ _ => false

/-- The rule that a heading makes after the text `before` and in the blocks `around`, if it does. -/
def Heading.rules (before : List Char) (around : List Heading) : Heading → List StyleRule
  | rule selector _ _ =>
    [⟨String.ofList selector.text, byteLength before, parentIn around, around.countP isRule⟩]
  | atRule _ _ | property _ _ => []

/-- The rules of a forest that comes after the text `before` and in the blocks `around`. A rule comes
before those in its block, and these before those after it. -/
def Forest.rules (before : List Char) (around : List Heading) : Forest → List StyleRule
  | done _ => []
  | statement gap content rest => rest.rules (before ++ gap.text ++ content.text ++ [';']) around
  | block gap heading items rest =>
    let inner := before ++ gap.text ++ heading.text ++ [' ', '{']
    heading.rules (before ++ gap.text) around ++ items.rules inner (heading :: around) ++
      rest.rules (inner ++ items.print ++ ['}']) around

/-- The text of a rule stands at its offset. -/
theorem Forest.exists_print_eq {before : List Char} {around : List Heading} {forest : Forest}
    {rule : StyleRule} (h : rule ∈ forest.rules before around) :
    ∃ front back, before ++ forest.print = front ++ rule.selector.toList ++ back ∧
      byteLength front = rule.offset := by
  induction forest generalizing before around with
  | done gap => cases h
  | statement gap content rest ih =>
    obtain ⟨front, back, htext, hoffset⟩ := ih h
    exact ⟨front, back, by simpa [print] using htext, hoffset⟩
  | block gap heading items rest ihItems ihRest =>
    simp only [rules, List.mem_append] at h
    rcases h with (hheading | hitems) | hrest
    · cases heading with
      | rule selector =>
        obtain rfl := List.mem_singleton.1 hheading
        exact ⟨before ++ gap.text, ' ' :: '{' :: items.print ++ '}' :: rest.print,
          by simp [print, Heading.text], rfl⟩
      | atRule | property => cases hheading
    · obtain ⟨front, back, htext, hoffset⟩ := ihItems hitems
      refine ⟨front, back ++ '}' :: rest.print, ?_, hoffset⟩
      have hmore := congrArg (· ++ '}' :: rest.print) htext
      simpa [print] using hmore
    · obtain ⟨front, back, htext, hoffset⟩ := ihRest hrest
      exact ⟨front, back, by simpa [print] using htext, hoffset⟩

end SelectorLint.Stylesheet
