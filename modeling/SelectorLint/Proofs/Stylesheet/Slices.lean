import SelectorLint.Proofs.Stylesheet.Relexing
import SelectorLint.Proofs.Text.Encoding

/-!
# Rules as slices of the source

The rules of a stylesheet are pieces of it, in order (`parse_slices`). A selector has the bytes of the source
from its offset on, other than inside of line comments, and no blanks at its ends. Up to the brace after it there
are just blanks and line comments that are too short for a mask in the form of a comment. The next rule starts
after this brace.

Both the gap before a brace and the order of the rules are read off the lexemes of a heading: those that it keeps
and, after them, those that leave nothing at its end (`Heads.exists_kept`).
-/

namespace SelectorLint.Stylesheet

open Text

/-! ## Slices -/

/-- The lexemes from the offset `start` up to a brace at `brace` begin no block and end no statement. -/
def OpensAt (dialect : Dialect) (source : List Char) (start brace : Nat) : Prop :=
  ∃ before statement after, (lexemes dialect source).pieces = before ++ statement ++ .openBrace :: after ∧
    (∀ lexeme ∈ statement, lexeme.isInner) ∧ byteLength (written Lexeme.text before) = start ∧
    byteLength (written Lexeme.text (before ++ statement)) = brace

/-- White space, and line comments of less than four bytes with the ends of their lines. -/
inductive Spacing (dialect : Dialect) : List Char → Prop where
  | nil : Spacing dialect []
  | blank {c : Char} {rest : List Char} (hc : isBlank c) (hrest : Spacing dialect rest) : Spacing dialect (c :: rest)
  | comment {body rest : List Char} (hdialect : dialect.hasLineComments) (hbody : '\n' ∉ body)
      (hshort : byteLength ('/' :: '/' :: body) < 4) (hrest : Spacing dialect ('\n' :: rest)) :
      Spacing dialect ('/' :: '/' :: body ++ '\n' :: rest)

/-- The byte at the offset belongs to a line comment. -/
def InLineComment (dialect : Dialect) (source : List Char) (offset : Nat) : Prop :=
  ∃ before body after, (lexemes dialect source).pieces = before ++ .lineComment body :: after ∧
    byteLength (written Lexeme.text before) ≤ offset ∧
    offset < byteLength (written Lexeme.text before) + byteLength (Lexeme.lineComment body).text

/-- The rule is a piece of the source that stands before the brace of its block. -/
structure IsSlice (dialect : Dialect) (source : String) (rule : StyleRule) (brace : Nat) : Prop where
  opens : OpensAt dialect source.toList rule.offset brace
  nonempty : rule.selector ≠ ""
  starts : ∀ c, rule.selector.toList.head? = some c → ¬isBlank c
  ends : ∀ c, rule.selector.toList.getLast? = some c → ¬isBlank c
  stop_le : rule.stop ≤ brace
  gap : ∃ front between rest, source.toList = front ++ between ++ '{' :: rest ∧ byteLength front = rule.stop ∧
    byteLength (front ++ between) = brace ∧ Spacing dialect between
  agrees : ∀ index < byteLength rule.selector.toList,
    source.toUTF8[rule.offset + index]? = rule.selector.toUTF8[index]? ∨
      dialect.hasLineComments ∧ InLineComment dialect source.toList (rule.offset + index)

/-! ## Parts of a slice -/

theorem not_isBlank_of_isSignificant {dialect : Dialect} {brackets : Nat} {c : Char} {more rest : List Char}
    {lexeme : Lexeme} (h : next dialect brackets c more = .ok (lexeme, rest))
    (hsignificant : lexeme.isSignificant) : ¬isBlank c := by
  intro hblank
  rw [next_of_isBlank hblank] at h
  cases h
  cases hsignificant

/-- A heading starts with the first character of its statement, which is no blank. -/
theorem exists_headingOf {dialect : Dialect} {brackets after : Nat} {text rest : List Char}
    {statement : List Lexeme} (hcuts : Cuts dialect brackets text statement after rest)
    (h : IsStatement statement) : ∃ c tail, headingOf statement = c :: tail ∧ ¬isBlank c := by
  obtain ⟨first, others, rfl, hfirst⟩ := h.starts
  cases hcuts with
  | @step _ c more _ middle _ _ _ hnext hothers =>
    have hc := not_isBlank_of_isSignificant hnext hfirst
    have hmasked : first.masked = first.text := by
      refine masked_of_ne fun body heq => ?_
      subst heq
      cases hfirst
    obtain ⟨d, tail, htext⟩ := List.exists_cons_of_ne_nil (text_ne_nil first)
    have happend := (splits_of_next hnext).append_eq
    rw [htext] at happend
    obtain ⟨rfl, -⟩ := List.cons.inj happend
    refine ⟨d, trimEnd (tail ++ maskedText others), ?_, hc⟩
    rw [headingOf, maskedText_cons, hmasked, htext, List.cons_append, trimEnd_cons hc]

/-- What leaves nothing at the end of a heading is a gap in the source. -/
theorem spacing_of_trails {dialect : Dialect} {brackets after : Nat} {text rest : List Char} {gap : List Lexeme}
    (hcuts : Cuts dialect brackets text gap after ('{' :: rest)) (h : ∀ lexeme ∈ gap, lexeme.Trails) :
    Spacing dialect (written Lexeme.text gap) := by
  generalize hbrace : '{' :: rest = rest' at hcuts
  induction hcuts with
  | done => exact .nil
  | @step brackets c more lexeme middle pieces after rest' hfirst hothers ih =>
    obtain ⟨hlexeme, hpieces⟩ := List.forall_mem_cons.1 h
    have hgap := ih hpieces hbrace
    cases hlexeme with
    | blank hblank => exact .blank hblank hgap
    | @short body hshort =>
      obtain ⟨-, hdialect, hbody, hline⟩ := (endsBefore_of_next hfirst).line body rfl
      rw [← hothers.written_append_rest, ← hbrace] at hline
      rw [written_cons]
      cases hwritten : written Lexeme.text pieces with
      | nil =>
        -- the brace would be in the comment
        rw [hwritten] at hline
        exact absurd (hline '{' rfl) (by decide)
      | cons d tail =>
        rw [hwritten] at hline hgap
        obtain rfl := hline d rfl
        exact .comment hdialect hbody hshort hgap

/-- A byte of a heading is that of the source, or the source has a line comment there. -/
theorem getElem?_bytes_maskedText (pieces : List Lexeme) {index : Nat}
    (h : index < byteLength (written Lexeme.text pieces)) :
    (bytes (maskedText pieces))[index]? = (bytes (written Lexeme.text pieces))[index]? ∨
      ∃ before body after, pieces = before ++ .lineComment body :: after ∧
        byteLength (written Lexeme.text before) ≤ index ∧
        index < byteLength (written Lexeme.text before) + byteLength (Lexeme.lineComment body).text := by
  induction pieces generalizing index with
  | nil => cases h
  | cons piece pieces ih =>
    rw [maskedText_cons, written_cons, bytes_append, bytes_append]
    have hlength := byteLength_masked piece
    by_cases hpiece : index < byteLength piece.text
    · by_cases hline : ∃ body, piece = .lineComment body
      · obtain ⟨body, rfl⟩ := hline
        exact .inr ⟨[], body, pieces, rfl, Nat.zero_le _, by simpa using hpiece⟩
      · rw [masked_of_ne fun body heq => hline ⟨body, heq⟩]
        rw [List.getElem?_append_left (by rwa [length_bytes]), List.getElem?_append_left (by rwa [length_bytes])]
        exact .inl rfl
    · rw [written_cons, byteLength_append] at h
      rw [List.getElem?_append_right (by rw [length_bytes]; omega),
        List.getElem?_append_right (by rw [length_bytes]; omega), length_bytes, length_bytes, hlength]
      have hindex : index - byteLength piece.text < byteLength (written Lexeme.text pieces) := by omega
      rcases ih hindex with heq | hcomment
      · exact .inl heq
      · obtain ⟨before, body, after, rfl, hlow, hhigh⟩ := hcomment
        refine .inr ⟨piece :: before, body, after, rfl, ?_, ?_⟩
        · rw [written_cons, byteLength_append]
          omega
        · rw [written_cons, byteLength_append]
          omega

/-! ## Rules -/

/-- The lexemes of a rule: what its selector keeps, and what is left of its statement. -/
theorem Heads.exists_kept {dialect : Dialect} {source : List Char} {past : List Lexeme} {brackets : Nat}
    {rest : List Char} {rule : StyleRule} (h : Heads past rule) (hcuts : Cuts dialect 0 source past brackets rest) :
    ∃ before kept gap after, past = before ++ (kept ++ gap) ++ .openBrace :: after ∧
      IsStatement (kept ++ gap) ∧ rule.offset = byteLength (written Lexeme.text before) ∧
      rule.selector.toList = maskedText kept ∧ headingOf (kept ++ gap) = maskedText kept ∧
      ∀ lexeme ∈ gap, lexeme.Trails := by
  obtain ⟨before, statement, after, rfl, hstatement, hoffset, hselector⟩ := h
  obtain ⟨_, _, hfront, -⟩ := hcuts.exists_of_append
  obtain ⟨_, _, -, hpieces⟩ := hfront.exists_of_append
  obtain ⟨kept, gap, rfl, hgap, hheading⟩ := Stylesheet.exists_kept hpieces
  refine ⟨before, kept, gap, after, rfl, hstatement, hoffset, ?_, hheading, hgap⟩
  rw [hselector, String.toList_ofList, hheading]

section Rules

variable {dialect : Dialect} {source : String} {brackets : Nat}

/-- The bytes of what a heading keeps are found in the source. -/
theorem getElem?_toUTF8_of_kept {before kept more : List Lexeme} {selector : String}
    (hpieces : (lexemes dialect source.toList).pieces = before ++ kept ++ more)
    (hcuts : Cuts dialect 0 source.toList (before ++ kept ++ more) brackets [])
    (hselector : selector.toList = maskedText kept) {index : Nat} (hindex : index < byteLength selector.toList) :
    source.toUTF8[byteLength (written Lexeme.text before) + index]? = selector.toUTF8[index]? ∨
      dialect.hasLineComments ∧
        InLineComment dialect source.toList (byteLength (written Lexeme.text before) + index) := by
  rw [hselector, byteLength_maskedText] at hindex
  have hsource : source.toList =
      written Lexeme.text before ++ (written Lexeme.text kept ++ written Lexeme.text more) := by
    rw [← hcuts.written_append_rest]
    simp
  have hbyte : (bytes source.toList)[byteLength (written Lexeme.text before) + index]? =
      (bytes (written Lexeme.text kept))[index]? := by
    rw [hsource, bytes_append, bytes_append, ← length_bytes, List.getElem?_append_right (Nat.le_add_right _ _),
      Nat.add_sub_cancel_left, List.getElem?_append_left (by rwa [length_bytes])]
  rw [getElem?_toUTF8, getElem?_toUTF8, hbyte, hselector]
  rcases getElem?_bytes_maskedText kept hindex with heq | ⟨earlier, body, later, rfl, hlow, hhigh⟩
  · exact .inl heq.symm
  · have hplace : before ++ (earlier ++ .lineComment body :: later) ++ more =
        before ++ earlier ++ .lineComment body :: (later ++ more) := by simp
    rw [hplace] at hpieces hcuts
    refine .inr ⟨?_, before ++ earlier, body, later ++ more, hpieces, ?_, ?_⟩
    · obtain ⟨_, _, -, hback⟩ := hcuts.exists_of_append
      cases hback with
      | step hnext => exact ((endsBefore_of_next hnext).line body rfl).2.1
    · rw [written_append, byteLength_append]
      omega
    · rw [written_append, byteLength_append]
      omega

theorem exists_isSlice {rule : StyleRule}
    (hcuts : Cuts dialect 0 source.toList (lexemes dialect source.toList).pieces brackets [])
    (h : Heads (lexemes dialect source.toList).pieces rule) : ∃ brace, IsSlice dialect source rule brace := by
  obtain ⟨before, kept, gap, after, hpieces, hstatement, hoffset, hselector, hheading, hgap⟩ :=
    h.exists_kept hcuts
  have hkept : (lexemes dialect source.toList).pieces = before ++ kept ++ (gap ++ .openBrace :: after) := by
    rw [hpieces]
    simp
  have hcutsKept := hkept ▸ hcuts
  rw [hpieces] at hcuts
  obtain ⟨_, text, hfront, hback⟩ := hcuts.exists_of_append
  obtain ⟨_, _, -, hcutsStatement⟩ := hfront.exists_of_append
  obtain ⟨_, _, -, hcutsGap⟩ := hcutsStatement.exists_of_append
  obtain rfl : '{' :: written Lexeme.text after = text := by
    rw [← hback.written_append_rest]
    simp [Lexeme.text]
  obtain ⟨c, tail, hstart, hc⟩ := exists_headingOf hcutsStatement hstatement
  have hstop : byteLength (written Lexeme.text (before ++ kept)) = rule.stop := by
    rw [StyleRule.stop, hselector, hoffset, written_append, byteLength_append, byteLength_maskedText]
  rw [hheading, ← hselector] at hstart
  refine ⟨byteLength (written Lexeme.text (before ++ (kept ++ gap))), ⟨?_, ?_, ?_, ?_, ?_, ?_, ?_⟩⟩
  · exact ⟨before, kept ++ gap, after, hpieces, hstatement.inner, hoffset.symm, rfl⟩
  · intro hnil
    rw [hnil] at hstart
    cases hstart
  · intro d hd
    rw [hstart] at hd
    cases hd
    exact hc
  · intro d hd
    rw [hselector, ← hheading] at hd
    exact not_isBlank_of_getLast?_trimEnd hd
  · rw [← hstop, ← List.append_assoc, written_append (before ++ kept), byteLength_append]
    omega
  · refine ⟨written Lexeme.text (before ++ kept), written Lexeme.text gap, written Lexeme.text after, ?_, hstop, ?_,
      spacing_of_trails hcutsGap hgap⟩
    · rw [← hfront.written_append_rest]
      simp
    · rw [← written_append, List.append_assoc]
  · intro index hindex
    rw [hoffset]
    exact getElem?_toUTF8_of_kept hkept hcutsKept hselector hindex

/-! ## The order of rules -/

/-- Fronts of one list are the same if they are equally long. -/
theorem eq_of_byteLength_written {front front' back back' : List Lexeme} (h : front ++ back = front' ++ back')
    (hlength : byteLength (written Lexeme.text front) = byteLength (written Lexeme.text front')) : front = front' := by
  rcases List.append_eq_append_iff.1 h with ⟨more, rfl, -⟩ | ⟨more, rfl, -⟩
  · rw [written_append, byteLength_append] at hlength
    rw [eq_nil_of_byteLength_written (by omega : byteLength (written Lexeme.text more) = 0), List.append_nil]
  · rw [written_append, byteLength_append] at hlength
    rw [eq_nil_of_byteLength_written (by omega : byteLength (written Lexeme.text more) = 0), List.append_nil]

/-- There is one brace that opens the block of a rule. -/
theorem OpensAt.eq {source : List Char} {start brace other : Nat} (h : OpensAt dialect source start brace)
    (hother : OpensAt dialect source start other) : brace = other := by
  obtain ⟨before, statement, after, hpieces, hinner, rfl, rfl⟩ := h
  obtain ⟨before', statement', after', hpieces', hinner', hstart, rfl⟩ := hother
  rw [hpieces, List.append_assoc, List.append_assoc] at hpieces'
  obtain rfl := eq_of_byteLength_written hpieces' hstart.symm
  rw [eq_of_append_cons hinner hinner' (by decide) (by decide) (List.append_cancel_left hpieces')]

/-- A statement that begins after the lexemes that a heading keeps begins after the brace, since it does not begin
with the lexemes in between. -/
theorem exists_after_brace {gap after before statement rest : List Lexeme} (hgap : ∀ lexeme ∈ gap, lexeme.Trails)
    (hstatement : IsStatement statement) (h : gap ++ .openBrace :: after = before ++ (statement ++ rest)) :
    ∃ between, before = gap ++ .openBrace :: between := by
  obtain ⟨⟨first, others, rfl, hfirst⟩, hinner⟩ := hstatement
  have hbrace : first ≠ .openBrace := by
    intro heq
    subst heq
    exact absurd (hinner _ List.mem_cons_self) (by decide)
  rcases List.append_eq_append_iff.1 h with ⟨more, rfl, hmore⟩ | ⟨more, rfl, hmore⟩
  · cases more with
    | nil => exact absurd (List.cons.inj hmore).1.symm hbrace
    | cons lexeme between =>
      obtain ⟨rfl, -⟩ := List.cons.inj hmore
      exact ⟨between, rfl⟩
  · cases more with
    | nil => exact absurd (List.cons.inj hmore).1 hbrace
    | cons lexeme between =>
      obtain ⟨rfl, -⟩ := List.cons.inj hmore
      cases hgap first (by simp) with
      | blank | short => cases hfirst

/-- A rule begins after the brace that opens the block of the rule before. -/
theorem lt_offset_of_opensAt {first second : StyleRule} {brace : Nat}
    (hcuts : Cuts dialect 0 source.toList (lexemes dialect source.toList).pieces brackets [])
    (hfirst : Heads (lexemes dialect source.toList).pieces first)
    (hsecond : Heads (lexemes dialect source.toList).pieces second) (horder : first.stop < second.offset)
    (hopens : OpensAt dialect source.toList first.offset brace) : brace < second.offset := by
  obtain ⟨before, kept, gap, after, hpieces, hstatement, hoffset, hselector, -, hgap⟩ := hfirst.exists_kept hcuts
  obtain ⟨before', statement, after', hpieces', hstatement', hoffset', -⟩ := hsecond
  obtain rfl := hopens.eq ⟨before, kept ++ gap, after, hpieces, hstatement.inner, hoffset.symm, rfl⟩
  rw [StyleRule.stop, hselector, hoffset, hoffset', byteLength_maskedText, ← byteLength_append,
    ← written_append] at horder
  have hall : (before ++ kept) ++ (gap ++ .openBrace :: after) =
      before' ++ (statement ++ .openBrace :: after') := by
    simpa using hpieces.symm.trans hpieces'
  rcases List.append_eq_append_iff.1 hall with ⟨more, rfl, hmore⟩ | ⟨more, hkept, -⟩
  · obtain ⟨between, rfl⟩ := exists_after_brace hgap hstatement' hmore
    rw [hoffset']
    simp only [written_append, written_cons, byteLength_append]
    have hbrace : byteLength Lexeme.openBrace.text = 1 := rfl
    omega
  · rw [hkept, written_append, byteLength_append] at horder
    omega

end Rules

/-- The rules of a stylesheet are slices of it, and each of them begins after the braces of those before. -/
theorem parse_slices {dialect : Dialect} {source : String} {rules : List StyleRule}
    (h : parse dialect source = .ok rules) :
    (∀ rule ∈ rules, ∃ brace, IsSlice dialect source rule brace) ∧
      rules.Pairwise fun first second =>
        ∀ brace, OpensAt dialect source.toList first.offset brace → brace < second.offset := by
  have hrules := rules_of_parse h
  obtain ⟨brackets, hcuts⟩ := hrules.cuts
  refine ⟨fun rule hrule => exists_isSlice hcuts (hrules.headed rule hrule), ?_⟩
  refine hrules.ordered.imp_of_mem ?_
  intro first second hfirst hsecond horder brace hopens
  exact lt_offset_of_opensAt hcuts (hrules.headed first hfirst) (hrules.headed second hsecond) horder hopens

/-- The first of two line comments is masked in the selector, and the other one is left out. -/
theorem parse_slices_comments :
    (parse .scss ".a//xy\n.b //z\n\x7b.c\x7b\x7d\x7d").toOption =
        some [⟨".a/**/\n.b", 0, .root, 0⟩, ⟨".c", 15, .rule, 1⟩] ∧
      ∃ brace, IsSlice .scss ".a//xy\n.b //z\n\x7b.c\x7b\x7d\x7d" ⟨".a/**/\n.b", 0, .root, 0⟩ brace ∧
        brace < 15 := by
  have hrules : (parse .scss ".a//xy\n.b //z\n\x7b.c\x7b\x7d\x7d").toOption =
      some [⟨".a/**/\n.b", 0, .root, 0⟩, ⟨".c", 15, .rule, 1⟩] := by
    decide +kernel
  refine ⟨hrules, ?_⟩
  cases hparse : parse .scss ".a//xy\n.b //z\n\x7b.c\x7b\x7d\x7d" with
  | error fault =>
    rw [hparse] at hrules
    cases hrules
  | ok rules =>
    rw [hparse] at hrules
    obtain rfl : rules = _ := Option.some.inj hrules
    obtain ⟨hslices, hordered⟩ := parse_slices hparse
    obtain ⟨brace, hslice⟩ := hslices _ List.mem_cons_self
    exact ⟨brace, hslice, (List.pairwise_cons.1 hordered).1 _ List.mem_cons_self brace hslice.opens⟩

end SelectorLint.Stylesheet
