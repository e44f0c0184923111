import SelectorLint.Selector.Lexeme
import SelectorLint.Text.Alphanumeric

/-!
# The grammar of selectors

What a selector list is, said by rules of derivation over characters and without a word about how it is
read. The rules are not deterministic: `ab` is one word, or the word `a` right before the word `b`.

The leaves are predicates of their own (`Balanced`, `Word`, `Quoted`, `Comment`, `Content`). The rest is
one family `Derives`, indexed by the symbol that is derived, since a component may hold a whole selector
list in parentheses.
-/

namespace SelectorLint.Selector.Grammar

open Text

/-! ## Leaves -/

/-- The characters of words: alphanumeric ones, `-`, `_`, `%`, and all beyond ASCII. -/
def IsWordCharacter (c : Char) : Prop :=
  isAlphanumeric c ∨ c = '-' ∨ c = '_' ∨ c = '%' ∨ 128 ≤ c.toNat

/-- The braces of the text stand in pairs. -/
inductive Balanced : List Char → Prop where
  | nil : Balanced []
  | character {c rest} (hopen : c ≠ '{') (hclose : c ≠ '}') (tail : Balanced rest) :
      Balanced (c :: rest)
  | braces {inner rest} (body : Balanced inner) (tail : Balanced rest) :
      Balanced ('{' :: inner ++ '}' :: rest)

/-- A run of word characters, escaped characters and interpolations, which may be empty. -/
inductive Letters : List Char → Prop where
  | nil : Letters []
  | character {c rest} (hc : IsWordCharacter c) (tail : Letters rest) : Letters (c :: rest)
  | escape {c rest} (tail : Letters rest) : Letters ('\\' :: c :: rest)
  | interpolation {inner rest} (body : Balanced inner) (tail : Letters rest) :
      Letters ('#' :: '{' :: inner ++ '}' :: rest)

/-- A word: a run of letters that is not empty. -/
structure Word (text : List Char) : Prop where
  letters : Letters text
  ne_nil : text ≠ []

/-- What follows an opening quote, the closing one included. A backslash takes the next character along. -/
inductive QuotedTail (quote : Char) : List Char → Prop where
  | close : QuotedTail quote [quote]
  | escape {c rest} (tail : QuotedTail quote rest) : QuotedTail quote ('\\' :: c :: rest)
  | character {c rest} (hquote : c ≠ quote) (hescape : c ≠ '\\') (tail : QuotedTail quote rest) :
      QuotedTail quote (c :: rest)

/-- A text in quotes of either sort. -/
inductive Quoted : List Char → Prop where
  | mk {quote tail} (hquote : quote = '"' ∨ quote = '\'') (htail : QuotedTail quote tail) :
      Quoted (quote :: tail)

/-- The text ends in `*/` and has no other `*/` before. -/
structure ClosesComment (text : List Char) : Prop where
  closed : ∃ body, text = body ++ ['*', '/']
  first : ∀ before after, text = before ++ '*' :: '/' :: after → after = []

/-- A comment, up to the first `*/` after its `/*`. -/
inductive Comment : List Char → Prop where
  | mk {tail} (htail : ClosesComment tail) : Comment ('/' :: '*' :: tail)

/-- What may stand in brackets: quoted texts, and characters other than quotes and `]`. -/
inductive Content : List Char → Prop where
  | nil : Content []
  | quoted {text rest} (htext : Quoted text) (tail : Content rest) : Content (text ++ rest)
  | character {c rest} (hclose : c ≠ ']') (hdouble : c ≠ '"') (hsingle : c ≠ '\'')
      (tail : Content rest) : Content (c :: rest)

/-- The combinators that are written as signs. -/
def signs : List (List Char) := [['>', '>', '>'], ['>'], ['+'], ['~']]

/-- What a pseudo-class or a pseudo-element begins with. -/
def colons : List (List Char) := [[':'], [':', ':']]

/-! ## Groups and lists -/

/-- The sorts of items in a group. -/
inductive Tag where
  | comment
  | combinator
  | component
  deriving DecidableEq, Repr

/-- Between any two combinators there is a component. -/
def Separated (tags : List Tag) : Prop :=
  ∀ before between after,
    tags = before ++ .combinator :: between ++ .combinator :: after → .component ∈ between

/-- What can be derived. -/
inductive Symbol where
  | selectors
  | group
  /-- Items of these sorts, one after the other. -/
  | items (tags : List Tag)
  | component
  deriving DecidableEq, Repr

/-- The text is derived from the symbol. -/
inductive Derives : Symbol → List Char → Prop where
  | last {text} (group : Derives .group text) : Derives .selectors text
  | comma {first rest} (group : Derives .group first) (others : Derives .selectors rest) :
      Derives .selectors (first ++ ',' :: rest)
  | group {tags text} (items : Derives (.items tags) text) (hne : tags ≠ [])
      (hseparated : Separated tags) : Derives .group text
  | done : Derives (.items []) []
  | blank {tags c rest} (hc : isSpace c) (others : Derives (.items tags) rest) :
      Derives (.items tags) (c :: rest)
  | comment {tags text rest} (htext : Comment text) (others : Derives (.items tags) rest) :
      Derives (.items (.comment :: tags)) (text ++ rest)
  | combinator {tags text rest} (htext : text ∈ signs) (others : Derives (.items tags) rest) :
      Derives (.items (.combinator :: tags)) (text ++ rest)
  | item {tags text rest} (component : Derives .component text)
      (others : Derives (.items tags) rest) :
      Derives (.items (.component :: tags)) (text ++ rest)
  | className {word} (hword : Word word) : Derives .component ('.' :: word)
  | id {word} (hword : Word word) : Derives .component ('#' :: word)
  | tag {word} (hword : Word word) : Derives .component word
  | nesting : Derives .component ['&']
  | universal : Derives .component ['*']
  | quoted {text} (htext : Quoted text) : Derives .component text
  | attr {content} (hcontent : Content content) (hblank : trim content ≠ []) :
      Derives .component ('[' :: content ++ [']'])
  | pseudo {lead word} (hlead : lead ∈ colons) (hword : Word word) :
      Derives .component (lead ++ word)
  | emptyCall {lead word blanks} (hlead : lead ∈ colons) (hword : Word word)
      (hblanks : ∀ c ∈ blanks, isSpace c) :
      Derives .component (lead ++ word ++ '(' :: blanks ++ [')'])
  | call {lead word arguments} (hlead : lead ∈ colons) (hword : Word word)
      (list : Derives .selectors arguments) :
      Derives .component (lead ++ word ++ '(' :: arguments ++ [')'])

/-! ## Combinators one after the other -/

/-- The tags can follow, after a combinator without a component since or (`false`) after anything else. -/
def fits : Bool → List Tag → Bool
  | _, [] => true
  | pending, .comment :: rest => fits pending rest
  | pending, .combinator :: rest => !pending && fits true rest
  | _, .component :: rest => fits false rest

theorem fits_false_of_fits_true {tags : List Tag} (h : fits true tags) : fits false tags := by
  induction tags with
  | nil => rfl
  | cons tag rest ih =>
    cases tag with
    | comment => exact ih h
    | combinator => simp [fits] at h
    | component => exact h

theorem separated_tail {tag : Tag} {tags : List Tag} (h : Separated (tag :: tags)) :
    Separated tags := by
  intro before between after heq
  exact h (tag :: before) between after (by rw [heq]; rfl)

theorem fits_true_iff {tags : List Tag} :
    fits true tags ↔ fits false tags ∧
      ∀ between after, tags = between ++ .combinator :: after → .component ∈ between := by
  induction tags with
  | nil => simp [fits]
  | cons tag rest ih =>
    cases tag with
    | comment =>
      rw [fits, fits, ih]
      refine and_congr_right fun _ => ⟨?_, ?_⟩
      · rintro h (_ | ⟨tag, between⟩) after heq
        · simp at heq
        · simp only [List.cons_append, List.cons.injEq] at heq
          exact List.mem_cons_of_mem _ (h between after heq.2)
      · intro h between after heq
        simpa using h (.comment :: between) after (by rw [heq]; rfl)
    | combinator =>
      refine ⟨fun h => by simp [fits] at h, fun h => ?_⟩
      simpa using h.2 [] rest rfl
    | component =>
      rw [fits, fits]
      refine ⟨fun h => ⟨h, ?_⟩, fun h => h.1⟩
      rintro (_ | ⟨tag, between⟩) after heq
      · simp at heq
      · simp only [List.cons_append, List.cons.injEq] at heq
        simp [← heq.1]

/-- Separation can be checked from left to right. -/
theorem separated_iff_fits {tags : List Tag} : Separated tags ↔ fits false tags := by
  induction tags with
  | nil =>
    refine ⟨fun _ => rfl, fun _ before between after heq => ?_⟩
    simp at heq
  | cons tag rest ih =>
    constructor
    · intro h
      have hrest : fits false rest := ih.1 (separated_tail h)
      cases tag with
      | comment | component => exact hrest
      | combinator =>
        simp only [fits, Bool.not_false, Bool.true_and]
        refine fits_true_iff.2 ⟨hrest, fun between after heq => ?_⟩
        exact h [] between after (by rw [heq]; rfl)
    · intro h before between after heq
      have hrest : fits false rest := by
        cases tag with
        | comment | component => exact h
        | combinator => exact fits_false_of_fits_true (by simpa [fits] using h)
      cases before with
      | nil =>
        simp only [List.nil_append, List.cons_append, List.cons.injEq] at heq
        obtain ⟨rfl, hsplit⟩ := heq
        have htrue : fits true rest := by simpa [fits] using h
        exact (fits_true_iff.1 htrue).2 between after hsplit
      | cons first before =>
        simp only [List.cons_append, List.cons.injEq] at heq
        exact ih.2 hrest before between after (by simpa using heq.2)

end SelectorLint.Selector.Grammar
