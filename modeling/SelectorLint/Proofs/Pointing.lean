import SelectorLint.Check
import SelectorLint.Proofs.Findings
import SelectorLint.Proofs.Selector.Placement
import SelectorLint.Proofs.Stylesheet.Headings

/-!
# Findings point into the source

The selector of a style rule is not a piece of the source: line comments in it are masked. Still, a
finding that names a node points at that node in the source (`check_pointsAt`).

A node stands where a lexeme of the selector starts, and this place is found again among the lexemes of
the stylesheet (`exists_piece`). Outside of line comments both texts are the same there. A mask in the
form of a comment has no lexeme of a selector starting inside it, since the slash at its end could not be
read (`isSome_trouble`). That leaves the line comments that are too short for this form. They are masked
by blanks, and a finding may point into one where it means white space.
-/

namespace SelectorLint.Stylesheet

open Text

/-! ## Masks -/

/-- What masks of line comments are made of. -/
def maskCharacters : List Char := [' ', '*', '/']

theorem mem_maskCharacters {body : List Char} {c : Char} (h : c ∈ (Lexeme.lineComment body).masked) :
    c ∈ maskCharacters := by
  unfold Lexeme.masked at h
  dsimp only at h
  split at h
  · simp only [List.cons_append, List.mem_cons, List.mem_append, List.mem_replicate, List.not_mem_nil,
      or_false] at h
    simp only [maskCharacters, List.mem_cons, List.not_mem_nil, or_false]
    tauto
  · rw [(List.mem_replicate.1 h).2]
    decide

/-- A place in the text of a heading is in one of its lexemes. -/
theorem exists_piece {pieces : List Lexeme} {front rest : List Char}
    (h : maskedText pieces = front ++ rest) (hrest : rest ≠ []) :
    ∃ before piece after first second, pieces = before ++ piece :: after ∧
      piece.masked = first ++ second ∧ second ≠ [] ∧ front = maskedText before ++ first ∧
      rest = second ++ maskedText after := by
  induction pieces generalizing front with
  | nil => exact absurd (List.append_eq_nil_iff.1 h.symm).2 hrest
  | cons piece pieces ih =>
    rw [maskedText_cons] at h
    rcases List.append_eq_append_iff.1 h with ⟨more, rfl, hmore⟩ | ⟨second, hfirst, hsecond⟩
    · obtain ⟨before, other, after, first, second, rfl, hother, hne, rfl, hback⟩ := ih hmore
      exact ⟨piece :: before, other, after, first, second, rfl, hother, hne, by simp, hback⟩
    · cases second with
      | nil =>
        rw [List.append_nil] at hfirst
        have hnone : maskedText pieces = [] ++ rest := by simpa using hsecond.symm
        obtain ⟨before, other, after, first, second, rfl, hother, hne, hnil, hback⟩ := ih hnone
        refine ⟨piece :: before, other, after, first, second, rfl, hother, hne, ?_, hback⟩
        rw [maskedText_cons, List.append_assoc, ← hnil, List.append_nil, hfirst]
      | cons c second =>
        exact ⟨[], piece, pieces, front, c :: second, rfl, hfirst, by simp, rfl, hsecond⟩

theorem masked_ne_nil (piece : Lexeme) : piece.masked ≠ [] := by
  intro hnil
  have hbytes := byteLength_masked piece
  have hpos := byteLength_pos (text_ne_nil piece)
  rw [hnil, byteLength_nil] at hbytes
  omega

/-- A lexeme whose mask starts with another character is no line comment. -/
theorem masked_eq_text_of_head {piece : Lexeme} {c : Char} {more rest : List Char}
    (h : piece.masked ++ more = c :: rest) (hc : c ∉ maskCharacters) : piece.masked = piece.text := by
  refine masked_of_ne fun body heq => hc ?_
  subst heq
  obtain ⟨d, tail, hmasked⟩ := List.exists_cons_of_ne_nil (masked_ne_nil (.lineComment body))
  rw [hmasked, List.cons_append] at h
  obtain ⟨rfl, -⟩ := List.cons.inj h
  exact mem_maskCharacters (hmasked ▸ List.mem_cons_self)

/-- What has nothing of a mask in it stands in the source as it does in the heading. -/
theorem isPrefix_of_unmasked {pieces : List Lexeme} {start word rest : List Char}
    (h : start ++ maskedText pieces = word ++ rest) (hword : ∀ c ∈ word, c ∉ maskCharacters) :
    word <+: start ++ written Lexeme.text pieces := by
  induction pieces generalizing start word with
  | nil => exact ⟨rest, h.symm⟩
  | cons piece pieces ih =>
    rcases List.append_eq_append_iff.1 h with ⟨more, rfl, hmore⟩ | ⟨more, rfl, -⟩
    · cases more with
      | nil => exact (List.append_nil start).symm ▸ List.prefix_append _ _
      | cons c more =>
        -- the word goes on in this lexeme, which is then no line comment
        have htext := masked_eq_text_of_head hmore (hword c (by simp))
        rw [maskedText_cons, htext] at hmore
        rw [List.prefix_append_right_inj, written_cons]
        exact ih hmore fun d hd => hword d (by simp [hd])
    · rw [List.append_assoc]
      exact List.prefix_append _ _

/-! ## Inside a mask -/

/-- No selector goes on with the end of a comment, unless it is in one. -/
theorem isSome_trouble {inside rest : List Char} (hinside : ∀ c ∈ inside, c = ' ' ∨ c = '*')
    (hrest : rest.head? ≠ some '*') : (Selector.lexemes (inside ++ '/' :: rest)).trouble.isSome := by
  induction inside with
  | nil =>
    have hslash : Selector.next '/' rest = .error ⟨0, .unexpectedCharacter '/'⟩ := by
      show Selector.readComment rest = _
      unfold Selector.readComment
      split
      · exact absurd rfl hrest
      · rfl
    rw [List.nil_append, Selector.lexemes_cons_of_error hslash]
    rfl
  | cons c inside ih =>
    obtain ⟨hc, htail⟩ := List.forall_mem_cons.1 hinside
    rcases hc with rfl | rfl
    · rw [List.cons_append, Selector.lexemes_cons_of_next rfl]
      exact ih htail
    · rw [List.cons_append, Selector.lexemes_cons_of_next rfl]
      exact ih htail

/-- What is left of the mask of a long line comment after its first characters. -/
theorem exists_inside_of_masked {body first second : List Char}
    (hlong : 4 ≤ byteLength (Lexeme.lineComment body).text)
    (h : (Lexeme.lineComment body).masked = first ++ second) (hfirst : first ≠ [])
    (hsecond : second ≠ []) :
    ∃ inside, second = inside ++ ['/'] ∧ ∀ c ∈ inside, c = ' ' ∨ c = '*' := by
  have hmasked : (Lexeme.lineComment body).masked =
      '/' :: ('*' :: List.replicate (byteLength (Lexeme.lineComment body).text - 4) ' ' ++ ['*'] ++ ['/']) := by
    rw [Lexeme.masked, if_pos hlong]
    simp
  obtain ⟨c, front, rfl⟩ := List.exists_cons_of_ne_nil hfirst
  obtain hnil | ⟨inside, last, rfl⟩ := List.eq_nil_or_concat second
  · exact absurd hnil hsecond
  · rw [hmasked, List.concat_eq_append] at h
    have htail : _ = front ++ (inside ++ [last]) := (List.cons.inj h).2
    rw [← List.append_assoc] at htail
    obtain ⟨hinside, hlast⟩ := List.append_inj' htail rfl
    refine ⟨inside, by rw [List.concat_eq_append, hlast], fun d hd => ?_⟩
    have hmem : d ∈ front ++ inside := List.mem_append_right _ hd
    rw [← hinside] at hmem
    simp only [List.cons_append, List.mem_cons, List.mem_append, List.mem_replicate, List.not_mem_nil,
      or_false] at hmem
    tauto

/-- The characters of a short line comment take one byte each. -/
theorem exists_split_of_short {body : List Char} {count : Nat}
    (hshort : byteLength (Lexeme.lineComment body).text < 4)
    (hcount : count < byteLength (Lexeme.lineComment body).text) :
    ∃ front rest, (Lexeme.lineComment body).text = front ++ rest ∧ byteLength front = count := by
  have hbound : count ≤ 2 := by omega
  match count with
  | 0 => exact ⟨[], '/' :: '/' :: body, rfl, rfl⟩
  | 1 => exact ⟨['/'], '/' :: body, rfl, rfl⟩
  | 2 => exact ⟨['/', '/'], body, rfl, rfl⟩

/-- What comes after a line comment, if anything does, starts a new line. -/
theorem head?_maskedText_ne_star {dialect : Dialect} {source body : List Char}
    {before after more : List Lexeme} {brackets : Nat}
    (h : Cuts dialect 0 source (before ++ .lineComment body :: (after ++ more)) brackets []) :
    (maskedText after).head? ≠ some '*' := by
  obtain ⟨middle, between, -, hback⟩ := h.exists_of_append
  cases hback with
  | step hfirst hothers =>
    have hwritten := hothers.written_append_rest
    obtain ⟨-, -, -, hline⟩ := (endsBefore_of_next hfirst).line body rfl
    cases after with
    | nil => simp
    | cons piece after =>
      obtain ⟨c, tail, htext⟩ := List.exists_cons_of_ne_nil (text_ne_nil piece)
      obtain rfl : c = '\n' := by
        refine hline c ?_
        rw [← hwritten, List.cons_append, written_cons, htext]
        rfl
      have hmasked : piece.masked = piece.text := by
        refine masked_of_ne fun other heq => ?_
        subst heq
        cases htext
      rw [maskedText_cons, hmasked, htext]
      simp

/-! ## Places in the source -/

/-- The text begins in the way in which a node with this kind and this value is written. -/
def BeginsAs (kind : Selector.Kind) (value : String) (text : List Char) : Prop :=
  match kind with
  | .className => text.head? = some '.'
  | .id => text.head? = some '#'
  | .attr => text.head? = some '['
  | .pseudo => text.head? = some ':'
  | .universal => text.head? = some '*'
  | .tag => ∃ c, value.toList.head? = some c ∧ text.head? = some c
  | .combinator =>
    (∃ sign : Selector.Sign, value.toList = sign.text ∧ sign.text <+: text) ∨
      value = " " ∧ ∃ c, text.head? = some c ∧ Selector.isSpace c
  | .root | .selector | .nesting | .string | .comment => False

/-- The byte at the offset belongs to a line comment of less than four bytes. -/
def InShortComment (dialect : Dialect) (source : List Char) (offset : Nat) : Prop :=
  ∃ before body after, (lexemes dialect source).pieces = before ++ .lineComment body :: after ∧
    byteLength (Lexeme.lineComment body).text < 4 ∧ byteLength (written Lexeme.text before) ≤ offset ∧
    offset < byteLength (written Lexeme.text before) + byteLength (Lexeme.lineComment body).text

/-- The offset is between two characters of the source, and what follows there is how a node with this
kind and this value is written. White space may also be a short comment. -/
def PointsAt (dialect : Dialect) (source : List Char) (offset : Nat) (kind : Selector.Kind)
    (value : String) : Prop :=
  ∃ front rest, source = front ++ rest ∧ byteLength front = offset ∧
    (BeginsAs kind value rest ∨ kind = .combinator ∧ value = " " ∧ InShortComment dialect source offset)

theorem BeginsAs.mono {kind : Selector.Kind} {value : String} {text more : List Char}
    (h : BeginsAs kind value text) (hbegin : text <+: more) : BeginsAs kind value more := by
  have hhead : ∀ c, text.head? = some c → more.head? = some c := by
    intro c hc
    obtain ⟨rest, rfl⟩ := hbegin
    rw [List.head?_append, hc]
    rfl
  cases kind with
  | className | id | attr | pseudo | universal => exact hhead _ h
  | tag =>
    obtain ⟨c, hvalue, hc⟩ := h
    exact ⟨c, hvalue, hhead c hc⟩
  | combinator =>
    rcases h with ⟨sign, hvalue, hsign⟩ | ⟨hvalue, c, hc, hspace⟩
    · exact .inl ⟨sign, hvalue, hsign.trans hbegin⟩
    · exact .inr ⟨hvalue, c, hhead c hc, hspace⟩
  | root | selector | nesting | string | comment => exact h.elim

theorem ne_slash_of_word {c : Char} {rest : List Char} (h : Selector.Grammar.Word (c :: rest)) :
    c ≠ '/' := by
  rintro rfl
  cases h.letters with
  | character hc _ => exact absurd (Selector.isWordCharacter_iff.2 hc) (by decide)

/-- The characters that tell the node apart which a lexeme becomes. After the first there is nothing in
them that a mask could have. -/
theorem exists_lead {lexeme : Selector.Lexeme} (hwell : lexeme.WellFormed) {kind : Selector.Kind}
    {value : String} (hnode : lexeme.node? = some (kind, value))
    (hkind : kind = .combinator ∨ kind.isChaining) :
    ∃ c word tail, lexeme.text = c :: word ++ tail ∧ c ≠ '/' ∧ (∀ d ∈ word, d ∉ maskCharacters) ∧
      BeginsAs kind value (c :: word) := by
  cases lexeme with
  | blank c =>
    cases hnode
    refine ⟨c, [], [], rfl, ?_, by simp, .inr ⟨rfl, c, rfl, hwell⟩⟩
    rintro rfl
    have hspace : Selector.isSpace '/' := hwell
    cases hspace
  | comma | close => cases hnode
  | call double name =>
    cases hnode
    cases double with
    | false => exact ⟨':', [], name ++ ['('], rfl, by decide, by simp, rfl⟩
    | true => exact ⟨':', [], ':' :: name ++ ['('], rfl, by decide, by simp, rfl⟩
  | part piece =>
    cases hnode
    cases piece with
    | descendant => exact hwell.elim
    | comment | nesting | string => rcases hkind with heq | heq <;> cases heq
    | combinator sign =>
      have hvalue : (Selector.Part.combinator sign).value.toList = sign.text := String.toList_ofList
      cases sign with
      | deep =>
        have hunmasked : ∀ c ∈ ['>', '>'], c ∉ maskCharacters := by simp [maskCharacters]
        exact ⟨'>', ['>', '>'], [], rfl, by decide, hunmasked, .inl ⟨_, hvalue, List.prefix_rfl⟩⟩
      | child => exact ⟨'>', [], [], rfl, by decide, by simp, .inl ⟨_, hvalue, List.prefix_rfl⟩⟩
      | adjacent => exact ⟨'+', [], [], rfl, by decide, by simp, .inl ⟨_, hvalue, List.prefix_rfl⟩⟩
      | sibling => exact ⟨'~', [], [], rfl, by decide, by simp, .inl ⟨_, hvalue, List.prefix_rfl⟩⟩
    | className name => exact ⟨'.', [], name, rfl, by decide, by simp, rfl⟩
    | id name => exact ⟨'#', [], name, rfl, by decide, by simp, rfl⟩
    | attr body => exact ⟨'[', [], body ++ [']'], rfl, by decide, by simp, rfl⟩
    | universal => exact ⟨'*', [], [], rfl, by decide, by simp, rfl⟩
    | pseudo double name =>
      cases double with
      | false => exact ⟨':', [], name, rfl, by decide, by simp, rfl⟩
      | true => exact ⟨':', [], ':' :: name, rfl, by decide, by simp, rfl⟩
    | tag word =>
      obtain ⟨c, rest, rfl⟩ := List.exists_cons_of_ne_nil hwell.ne_nil
      refine ⟨c, [], rest, rfl, ne_slash_of_word hwell, by simp, c, ?_, rfl⟩
      rw [Selector.Part.value, String.toList_ofList]
      · rfl
      all_goals simp

section Places

variable {dialect : Dialect} {source : List Char} {earlier later more : List Lexeme} {brackets : Nat}
  {first second rest blanks body : List Char} {kind : Selector.Kind} {value : String}

/-- Outside of line comments the source is what stands in the heading. -/
theorem pointsAt_of_text {piece : Lexeme} {c : Char} {word : List Char}
    (hsource : source = written Lexeme.text (earlier ++ piece :: (later ++ more))) (htext : piece.masked = piece.text)
    (hpiece : piece.masked = first ++ second) (hsecond : second ≠ [])
    (hrest : c :: word ++ rest = second ++ maskedText later) (hword : ∀ d ∈ word, d ∉ maskCharacters)
    (hbegins : BeginsAs kind value (c :: word)) :
    PointsAt dialect source (byteLength (written Lexeme.text earlier) + byteLength first) kind value := by
  obtain ⟨d, tail, rfl⟩ := List.exists_cons_of_ne_nil hsecond
  obtain ⟨rfl, htail⟩ := List.cons.inj hrest
  have hbegin : word <+: tail ++ written Lexeme.text later := isPrefix_of_unmasked htail.symm hword
  refine ⟨written Lexeme.text earlier ++ first,
    c :: tail ++ written Lexeme.text later ++ written Lexeme.text more, ?_, ?_, .inl ?_⟩
  · rw [hsource, written_append, written_cons, written_append, ← htext, hpiece]
    simp
  · rw [byteLength_append]
  · refine hbegins.mono (List.IsPrefix.trans ?_ (List.prefix_append _ _))
    exact (List.cons_prefix_cons.2 ⟨rfl, hbegin⟩)

/-- A mask in the form of a comment has no lexeme of a selector starting inside it. -/
theorem first_eq_nil_of_long
    (hcuts : Cuts dialect 0 source (earlier ++ .lineComment body :: (later ++ more)) brackets [])
    (hlong : 4 ≤ byteLength (Lexeme.lineComment body).text)
    (hpiece : (Lexeme.lineComment body).masked = first ++ second) (hsecond : second ≠ [])
    (hblanks : ∀ c ∈ blanks, isBlank c) (hrest : rest ++ blanks = second ++ maskedText later)
    (hlexemes : (Selector.lexemes rest).trouble = none) : first = [] := by
  by_contra hfirst
  obtain ⟨inside, rfl, hinside⟩ := exists_inside_of_masked hlong hpiece hfirst hsecond
  have hstar := head?_maskedText_ne_star hcuts
  rw [List.append_assoc, List.singleton_append] at hrest
  -- the slash is no blank, so it is in the selector
  obtain ⟨tail, rfl, htail⟩ :
      ∃ tail, rest = inside ++ '/' :: tail ∧ tail ++ blanks = maskedText later := by
    rcases List.append_eq_append_iff.1 hrest with ⟨between, -, rfl⟩ | ⟨between, rfl, hbetween⟩
    · exact absurd (hblanks '/' (by simp)) (by decide)
    · cases between with
      | nil =>
        rw [List.nil_append] at hbetween
        subst hbetween
        exact absurd (hblanks '/' List.mem_cons_self) (by decide)
      | cons c between =>
        obtain ⟨rfl, hlater⟩ := List.cons.inj hbetween
        exact ⟨between, rfl, hlater.symm⟩
  have hnot : tail.head? ≠ some '*' := by
    intro hhead
    rw [← htail, List.head?_append, hhead] at hstar
    exact hstar rfl
  have htrouble := isSome_trouble hinside hnot
  rw [hlexemes] at htrouble
  cases htrouble

/-- In a short line comment there is white space for the selector. -/
theorem pointsAt_of_short
    (hpieces : (lexemes dialect source).pieces = earlier ++ .lineComment body :: more)
    (hsource : source = written Lexeme.text (earlier ++ .lineComment body :: more))
    (hshort : byteLength (Lexeme.lineComment body).text < 4)
    (hpiece : (Lexeme.lineComment body).masked = first ++ second) (hsecond : second ≠ []) :
    PointsAt dialect source (byteLength (written Lexeme.text earlier) + byteLength first) .combinator " " := by
  have hbytes := congrArg byteLength hpiece
  have hpos := byteLength_pos hsecond
  rw [byteLength_masked, byteLength_append] at hbytes
  have hinside : byteLength first < byteLength (Lexeme.lineComment body).text := by omega
  obtain ⟨front, tail, htext, hfront⟩ := exists_split_of_short hshort hinside
  refine ⟨written Lexeme.text earlier ++ front, tail ++ written Lexeme.text more, ?_, ?_, .inr ⟨rfl, rfl, ?_⟩⟩
  · rw [hsource, written_append, written_cons, htext]
    simp
  · rw [byteLength_append, hfront]
  · exact ⟨earlier, body, more, hpieces, hshort, by omega, by omega⟩

/-- In a line comment, only white space of the selector can start, and only if the comment is short. -/
theorem pointsAt_of_lineComment {lexeme : Selector.Lexeme} {back : List Selector.Lexeme}
    (hpieces : (lexemes dialect source).pieces = earlier ++ .lineComment body :: (later ++ more))
    (hcuts : Cuts dialect 0 source (earlier ++ .lineComment body :: (later ++ more)) brackets [])
    (hpiece : (Lexeme.lineComment body).masked = first ++ second) (hsecond : second ≠ [])
    (hblanks : ∀ c ∈ blanks, isBlank c) (hrest : rest ++ blanks = second ++ maskedText later)
    (hlexemes : Selector.lexemes rest = ⟨lexeme :: back, none⟩) (hslash : rest.head? ≠ some '/')
    (hnode : lexeme.node? = some (kind, value)) :
    PointsAt dialect source (byteLength (written Lexeme.text earlier) + byteLength first) kind value := by
  obtain ⟨c, tail, left, rfl, hnext, -⟩ := Selector.exists_next_of_lexemes hlexemes
  obtain ⟨d, others, rfl⟩ := List.exists_cons_of_ne_nil hsecond
  obtain ⟨rfl, -⟩ := List.cons.inj hrest
  by_cases hlong : 4 ≤ byteLength (Lexeme.lineComment body).text
  · have htrouble : (Selector.lexemes (c :: tail)).trouble = none := by rw [hlexemes]
    obtain rfl := first_eq_nil_of_long hcuts hlong hpiece hsecond hblanks hrest htrouble
    rw [Lexeme.masked, if_pos hlong] at hpiece
    obtain ⟨rfl, -⟩ := List.cons.inj hpiece
    exact absurd rfl hslash
  · obtain rfl : c = ' ' := by
      have hmem : c ∈ first ++ c :: others := by simp
      rw [← hpiece, Lexeme.masked, if_neg hlong] at hmem
      exact (List.mem_replicate.1 hmem).2
    rw [Selector.next_of_isSpace (by decide)] at hnext
    cases hnext
    cases hnode
    have hsource := hcuts.written_append_rest
    rw [List.append_nil] at hsource
    exact pointsAt_of_short hpieces hsource.symm (by omega) hpiece hsecond

end Places

/-- A place in a heading where a lexeme of the selector starts is a place in the source where the node of
that lexeme is written. -/
theorem pointsAt_of_lexemes {dialect : Dialect} {source : List Char} {before statement after : List Lexeme}
    {brackets : Nat} {front rest : List Char} {lexeme : Selector.Lexeme} {back : List Selector.Lexeme}
    {kind : Selector.Kind} {value : String}
    (hpieces : (lexemes dialect source).pieces = before ++ statement ++ .openBrace :: after)
    (hcuts : Cuts dialect 0 source (lexemes dialect source).pieces brackets [])
    (hheading : headingOf statement = front ++ rest)
    (hlexemes : Selector.lexemes rest = ⟨lexeme :: back, none⟩)
    (hnode : lexeme.node? = some (kind, value)) (hkind : kind = .combinator ∨ kind.isChaining) :
    PointsAt dialect source (byteLength (written Lexeme.text before) + byteLength front) kind value := by
  obtain ⟨blanks, hblanks, htrimmed⟩ := exists_trimEnd_eq (maskedText statement)
  rw [← headingOf, hheading, List.append_assoc] at htrimmed
  obtain ⟨d, tail, left, hrest, hnext, -⟩ := Selector.exists_next_of_lexemes hlexemes
  obtain ⟨earlier, piece, later, first, second, rfl, hpiece, hsecond, rfl, hback⟩ :=
    exists_piece htrimmed (by simp [hrest])
  obtain ⟨c, word, extra, htext, hslash, hword, hbegins⟩ :=
    exists_lead (Selector.wellFormed_of_next hnext) hnode hkind
  have hsplit := (Selector.splits_of_next hnext).append_eq
  have hall : before ++ (earlier ++ piece :: later) ++ .openBrace :: after =
      before ++ earlier ++ piece :: (later ++ .openBrace :: after) := by simp
  rw [hall] at hpieces
  rw [hpieces] at hcuts
  have hsource := hcuts.written_append_rest
  rw [List.append_nil] at hsource
  have hoffset : byteLength (written Lexeme.text before) + byteLength (maskedText earlier ++ first) =
      byteLength (written Lexeme.text (before ++ earlier)) + byteLength first := by
    rw [byteLength_append, byteLength_maskedText, written_append, byteLength_append, Nat.add_assoc]
  have hlead : c :: word ++ (extra ++ left ++ blanks) = second ++ maskedText later := by
    rw [← hback, hrest, ← hsplit, htext]
    simp
  rw [hoffset]
  cases piece with
  | lineComment body =>
    have hhead : rest.head? ≠ some '/' := by
      rw [hrest, ← hsplit, htext]
      simpa using hslash
    exact pointsAt_of_lineComment hpieces hcuts hpiece hsecond hblanks hback hlexemes hhead hnode
  | _ => exact pointsAt_of_text hsource.symm rfl hpiece hsecond hlead hword hbegins

/-- A place where a node of a selector starts, counted from the start of its rule. -/
theorem RulesOf.pointsAt {dialect : Dialect} {source : List Char} {rules : List StyleRule}
    (h : RulesOf dialect source rules) {rule : StyleRule} (hrule : rule ∈ rules) {label : Selector.Label}
    (hstarts : Selector.StartsAt rule.selector.toList label)
    (hkind : label.kind = .combinator ∨ label.kind.isChaining) :
    PointsAt dialect source (rule.offset + label.offset) label.kind label.value := by
  obtain ⟨brackets, hcuts⟩ := h.cuts
  obtain ⟨before, statement, after, hpieces, -, hoffset, hselector⟩ := h.headed rule hrule
  obtain ⟨front, rest, lexeme, back, hsplit, hfront, hlexemes, hnode⟩ := hstarts
  rw [hselector, String.toList_ofList] at hsplit
  rw [hoffset, ← hfront]
  exact pointsAt_of_lexemes hpieces hcuts hsplit hlexemes hnode hkind

end SelectorLint.Stylesheet

namespace SelectorLint

open Stylesheet

/-- The violations of a rule are its findings, counted from the start of the style rule. Where a finding
names a node, it points at that node in the source, and not just in the selector with its masks. -/
theorem check_pointsAt {dialect : Dialect} {source : String} {styles : List StyleRule}
    {style : StyleRule} {tree : Selector.Tree} (hscan : parse dialect source = .ok styles)
    (hstyle : style ∈ styles) (htree : Selector.parse style.selector = .ok tree) (rule : EnabledRule)
    (file : Path) :
    (rule.check file (.ofText source) style).map (fun violation => (violation.offset, violation.message)) =
        (rule.options.policy.evaluate tree style.selector style.parent).map
          (fun finding => (style.offset + finding.offset, finding.reason.message)) ∧
      ∀ finding ∈ rule.options.policy.evaluate tree style.selector style.parent,
        ∀ value kind, finding.reason = .expected value kind →
          PointsAt dialect source.toList (style.offset + finding.offset) kind value := by
  constructor
  · rw [EnabledRule.check, EnabledRule.remarks, htree, List.map_map, List.map_map]
    rfl
  · intro finding hfinding value kind hreason
    obtain ⟨hlabel, hkind⟩ := Policy.label_of_expected hfinding hreason
    have hne : kind ≠ .selector := by
      rintro rfl
      rcases hkind with heq | heq <;> cases heq
    have hstarts := (Selector.labels_of_parse htree).starts _ hlabel hne
    exact (rules_of_parse hscan).pointsAt hstyle hstarts hkind

/-- The first of two descendant combinators stands for a comment of three bytes. -/
theorem check_pointsAt_comment :
    ∃ tree, Selector.parse ".a   \n.b .c" = .ok tree ∧
      ⟨.expected " " .combinator, 2⟩ ∈ Policy.evaluate ⟨.always, .each⟩ tree ".a   \n.b .c" .root ∧
      PointsAt .scss ".a//x\n.b .c \x7b\x7d".toList 2 .combinator " " := by
  have hstyles : (parse .scss ".a//x\n.b .c \x7b\x7d").toOption =
      some [⟨".a   \n.b .c", 0, .root, 0⟩] := by
    decide +kernel
  have hfindings : ((Selector.parse ".a   \n.b .c").toOption.map fun tree =>
      Policy.evaluate ⟨.always, .each⟩ tree ".a   \n.b .c" .root) =
        some [⟨.expected " " .combinator, 2⟩, ⟨.expected " " .combinator, 8⟩] := by
    decide +kernel
  cases hscan : parse .scss ".a//x\n.b .c \x7b\x7d" with
  | error fault =>
    rw [hscan] at hstyles
    cases hstyles
  | ok styles =>
    cases htree : Selector.parse ".a   \n.b .c" with
    | error fault =>
      rw [htree] at hfindings
      cases hfindings
    | ok tree =>
      rw [hscan] at hstyles
      rw [htree] at hfindings
      obtain rfl : styles = _ := Option.some.inj hstyles
      have hall : Policy.evaluate ⟨.always, .each⟩ tree ".a   \n.b .c" .root = _ :=
        Option.some.inj hfindings
      have hmem : ⟨.expected " " .combinator, 2⟩ ∈
          Policy.evaluate ⟨.always, .each⟩ tree ".a   \n.b .c" .root := by
        rw [hall]
        exact List.mem_cons_self
      refine ⟨tree, rfl, hmem, ?_⟩
      exact (check_pointsAt hscan List.mem_cons_self htree
        ⟨.nestCombinators, ⟨⟨.always, .each⟩, .error⟩⟩ ⟨"a.scss"⟩).2 _ hmem " " .combinator rfl

end SelectorLint
