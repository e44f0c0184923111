import SelectorLint.Proofs.Selector.Acceptance

/-!
# Parsing recognises the grammar

A selector parses just when the grammar derives it (`parse_isOk_iff_derives`).

From left to right, the items of a valid list are read back as a derivation. From right to left, the
induction is on the derivation, and what it carries depends on the symbol (`Recognised`). The lexer
cuts a text differently from a derivation in one place: a component that ends in a word takes the word
of the next component along. So a component is recognised before items that have been recognised
already, and what it leaves unchanged is not the items but whether their combinators are separated.
-/

namespace SelectorLint.Selector

open Text Grammar

/-! ## Valid items are derived -/

/-- The text of the item may stand before any items. -/
def Item.Derivable (item : Item) : Prop :=
  ∀ tags rest, Derives (.items tags) rest →
    Derives (.items (item.sort?.toList ++ tags)) (written Lexeme.text item.lexemes ++ rest)

theorem derives_items {items : List Item} (h : ∀ item ∈ items, item.Derivable) :
    Derives (.items (groupTags items)) (written Lexeme.text (groupLexemes items)) := by
  induction items with
  | nil => exact .done
  | cons item rest ih =>
    obtain ⟨hitem, hrest⟩ := List.forall_mem_cons.1 h
    have htags : groupTags (item :: rest) = item.sort?.toList ++ groupTags rest := by
      cases hsort : item.sort? with
      | none => exact List.filterMap_cons_none hsort
      | some tag => exact List.filterMap_cons_some hsort
    rw [htags, groupLexemes, written_append]
    exact hitem _ _ (ih hrest)

theorem derives_group {items : List Item} (hfits : GroupFits items)
    (h : ∀ item ∈ items, item.Derivable) : Derives .group (written Lexeme.text (groupLexemes items)) :=
  .group (derives_items h) hfits.ne_nil (separated_iff_fits.2 hfits.fits)

theorem derives_selectors {first : List Item} {others : List (List Item)}
    (hfits : ∀ group ∈ first :: others, GroupFits group)
    (h : ∀ group ∈ first :: others, ∀ item ∈ group, item.Derivable) :
    Derives .selectors (written Lexeme.text (listLexemes first others)) := by
  induction others generalizing first with
  | nil =>
    have hgroup := derives_group (hfits first (by simp)) (h first (by simp))
    simpa [listLexemes, othersLexemes] using Derives.last hgroup
  | cons second others ih =>
    obtain ⟨hfirst, hothers⟩ := List.forall_mem_cons.1 hfits
    obtain ⟨hitems, hrest⟩ := List.forall_mem_cons.1 h
    have hcomma := Derives.comma (derives_group hfirst hitems) (ih hothers hrest)
    simpa [listLexemes, othersLexemes, Lexeme.text] using hcomma

theorem quoted_of_isQuote {quote : Char} {tail : List Char} (hquote : isQuote quote)
    (htail : QuotedTail quote tail) : Quoted (quote :: tail) :=
  .mk (isQuote_iff.1 hquote) htail

/-- The colons of a pseudo-class. -/
theorem colons_mem (double : Bool) : (if double then [':', ':'] else [':']) ∈ colons := by
  cases double <;> decide

theorem derives_component {piece : Part} (h : piece.WellFormed) (hsort : piece.sort = .component) :
    Derives .component piece.text := by
  cases piece with
  | descendant => exact h.elim
  | combinator | comment => cases hsort
  | className => exact .className h
  | id => exact .id h
  | attr => exact .attr h.1 h.2
  | nesting => exact .nesting
  | universal => exact .universal
  | string => exact .quoted (quoted_of_isQuote h.1 h.2)
  | tag => exact .tag h
  | pseudo double => exact .pseudo (colons_mem double) h

theorem derivable_part {piece : Part} (h : piece.WellFormed) : (Item.part piece).Derivable := by
  intro tags rest hrest
  simp only [Item.sort?, Option.toList_some, List.cons_append, List.nil_append, Item.lexemes,
    written_cons, written_nil, List.append_nil, Lexeme.text]
  cases hsort : piece.sort with
  | component => exact .item (derives_component h hsort) hrest
  | comment =>
    cases piece with
    | comment tail => exact .comment (.mk h) hrest
    | _ => cases hsort
  | combinator =>
    cases piece with
    | combinator sign => exact .combinator (by cases sign <;> decide) hrest
    | _ => cases hsort

theorem isSpace_of_groupTags_eq_nil {items : List Item} (hnone : groupTags items = [])
    (h : ∀ item ∈ items, item.Valid) : ∀ c ∈ written Lexeme.text (groupLexemes items), isSpace c := by
  induction items with
  | nil => simp [groupLexemes]
  | cons item rest ih =>
    obtain ⟨hitem, hrest⟩ := List.forall_mem_cons.1 h
    cases hitem with
    | blank hc =>
      rw [groupTags_blank] at hnone
      simpa [groupLexemes, Item.lexemes, Lexeme.text, hc] using ih hnone hrest
    | part | emptyCall | call => cases hnone

theorem derivable_of_valid {item : Item} (h : item.Valid) : item.Derivable := by
  induction h with
  | blank hc => exact fun tags rest hrest => .blank hc hrest
  | part hpiece => exact derivable_part hpiece
  | @emptyCall double name first hname hnone hitems _ =>
    intro tags rest hrest
    have hcall := Derives.emptyCall (colons_mem double) hname
      (isSpace_of_groupTags_eq_nil hnone hitems)
    simpa [Item.sort?, Item.lexemes, othersLexemes, Lexeme.text, Part.text] using
      Derives.item hcall hrest
  | @call double name first others hname hfits _ ih =>
    intro tags rest hrest
    have hcall := Derives.call (colons_mem double) hname (derives_selectors hfits ih)
    simpa [Item.sort?, Item.lexemes, listLexemes, Lexeme.text, Part.text] using
      Derives.item hcall hrest

/-! ## Lexemes in front of a text -/

/-- The text begins with these lexemes, and goes on with `rest`. -/
def LexesAs (text : List Char) (front : List Lexeme) (rest : List Char) : Prop :=
  lexemes text = ⟨front ++ (lexemes rest).pieces, (lexemes rest).trouble⟩

namespace LexesAs

variable {text middle rest : List Char} {front back : List Lexeme}

theorem refl (rest : List Char) : LexesAs rest [] rest := rfl

theorem cons {c : Char} {more : List Char} {lexeme : Lexeme}
    (hnext : next c more = .ok (lexeme, text)) (h : LexesAs text front rest) :
    LexesAs (c :: more) (lexeme :: front) rest := by
  rw [LexesAs, lexemes_cons_of_next hnext, h]
  rfl

theorem trans (h : LexesAs text front middle) (hmore : LexesAs middle back rest) :
    LexesAs text (front ++ back) rest := by
  rw [LexesAs, h, hmore, List.append_assoc]

end LexesAs

/-- What may come after a group. -/
inductive EndsGroup : List Char → Prop where
  | nil : EndsGroup []
  | comma (rest : List Char) : EndsGroup (',' :: rest)
  | close (rest : List Char) : EndsGroup (')' :: rest)

/-- The text begins with valid items of a group, and the group ends before `rest`. -/
structure Reads (text : List Char) (items : List Item) (rest : List Char) : Prop where
  lexes : LexesAs text (groupLexemes items) rest
  valid : ∀ item ∈ items, item.Valid
  ends : EndsGroup rest

theorem lexemes_cons_of_error {c : Char} {rest : List Char} {trouble : Trouble Fault}
    (h : next c rest = .error trouble) : lexemes (c :: rest) = ⟨[], some trouble⟩ := by
  rw [lexemes]
  split
  next herror =>
    rw [h] at herror
    cases herror
    rfl
  next hok =>
    rw [h] at hok
    cases hok

/-- Where a group ends there is no part, and no trouble before the next lexeme. -/
theorem EndsGroup.lexemes_ne {rest : List Char} (h : EndsGroup rest) :
    (∀ trouble, lexemes rest ≠ ⟨[], some trouble⟩) ∧
      ∀ piece lexing, lexemes rest ≠ Lexing.cons (.part piece) lexing := by
  cases h with
  | nil => simp [lexemes_nil, Lexing.cons]
  | comma rest =>
    rw [lexemes_cons_of_next (show next ',' rest = .ok (.comma, rest) from rfl)]
    simp [Lexing.cons]
  | close rest =>
    rw [lexemes_cons_of_next (show next ')' rest = .ok (.close, rest) from rfl)]
    simp [Lexing.cons]

theorem next_of_isSpace {c : Char} (hc : isSpace c) (rest : List Char) :
    next c rest = .ok (.blank c, rest) := by
  unfold next
  rw [if_pos hc]

namespace Reads

variable {text rest : List Char} {items : List Item}

theorem nil (h : EndsGroup rest) : Reads rest [] rest := ⟨.refl rest, by simp, h⟩

theorem blank {c : Char} (h : Reads text items rest) (hc : isSpace c) :
    Reads (c :: text) (.blank c :: items) rest where
  lexes := .cons (next_of_isSpace hc _) h.lexes
  valid := List.forall_mem_cons.2 ⟨.blank hc, h.valid⟩
  ends := h.ends

theorem part {c : Char} {more : List Char} {piece : Part} (h : Reads text items rest)
    (hnext : next c more = .ok (.part piece, text)) :
    Reads (c :: more) (.part piece :: items) rest where
  lexes := .cons hnext h.lexes
  valid := List.forall_mem_cons.2 ⟨.part (wellFormed_of_next hnext), h.valid⟩
  ends := h.ends

theorem next_ne_error {c : Char} {more : List Char} (h : Reads (c :: more) items rest)
    (trouble : Trouble Fault) : next c more ≠ .error trouble := by
  intro herror
  have heq := h.lexes
  rw [LexesAs, lexemes_cons_of_error herror] at heq
  obtain ⟨hpieces, htrouble⟩ := Lexing.mk.inj heq
  have hnone : (lexemes rest).pieces = [] := (List.append_eq_nil_iff.1 hpieces.symm).2
  exact h.ends.lexemes_ne.1 trouble (by rw [← hnone, htrouble])

/-- A part at the start of the text is the first item. -/
theorem exists_of_next {c : Char} {more after : List Char} {piece : Part}
    (h : Reads (c :: more) items rest) (hnext : next c more = .ok (.part piece, after)) :
    ∃ others, items = .part piece :: others ∧ Reads after others rest := by
  have heq := h.lexes
  rw [LexesAs, lexemes_cons_of_next hnext] at heq
  cases items with
  | nil => exact absurd heq.symm (h.ends.lexemes_ne.2 piece (lexemes after))
  | cons item others =>
    cases item with
    | part other =>
      obtain ⟨hpieces, htrouble⟩ := Lexing.mk.inj heq
      obtain ⟨hpart, hothers⟩ := List.cons.inj hpieces
      cases hpart
      refine ⟨others, rfl, ?_, (List.forall_mem_cons.1 h.valid).2, h.ends⟩
      rw [LexesAs, ← htrouble]
      exact congrArg (Lexing.mk · _) hothers
    | blank | call =>
      obtain ⟨hpieces, -⟩ := Lexing.mk.inj heq
      cases (List.cons.inj hpieces).1

theorem head_ne_paren (h : Reads text items rest) (more : List Char) : text ≠ '(' :: more := by
  intro heq
  subst heq
  exact h.next_ne_error _ rfl

/-- Letters before items are a word together with the letters that the items begin with. -/
theorem exists_word {letters : List Char} (hletters : Letters letters) (h : Reads text items rest) :
    ∃ along after others, word 0 (letters ++ text) = .ok (letters ++ along, after) ∧
      Reads after others rest ∧ fits false (groupTags others) = fits false (groupTags items) := by
  have hword : ∀ along after, word 0 text = .ok (along, after) →
      word 0 (letters ++ text) = .ok (letters ++ along, after) := by
    intro along after halong
    rw [word_append_of_letters hletters, word_eq_ok_of_word_eq_ok halong]
    rfl
  cases text with
  | nil => exact ⟨[], [], items, hword [] [] (by rw [word]), h, rfl⟩
  | cons c more =>
    by_cases hstarts : StartsWord c more
    · have hnext := next_of_startsWord hstarts
      cases halong : word 0 (c :: more) with
      | error trouble =>
        rw [readTag, halong] at hnext
        exact absurd hnext (h.next_ne_error trouble)
      | ok result =>
        obtain ⟨along, after⟩ := result
        rw [readTag, halong] at hnext
        obtain ⟨others, rfl, hothers⟩ := h.exists_of_next hnext
        exact ⟨along, after, others, hword along after halong, hothers, rfl⟩
    · exact ⟨[], c :: more, items, hword [] _ (word_of_not_startsWord hstarts 0), h, rfl⟩

end Reads

/-! ## Components in front of items -/

/-- The text is a component: before any items it gives items that begin with a component. -/
def JoinsAsComponent (text : List Char) : Prop :=
  ∀ tail items rest, Reads tail items rest →
    ∃ others tags, Reads (text ++ tail) others rest ∧ groupTags others = .component :: tags ∧
      fits false tags = fits false (groupTags items)

/-- A component that ends where it ends, whatever follows. -/
theorem joinsAsComponent_of_next {c : Char} {text : List Char} (piece : Part)
    (hsort : piece.sort = .component)
    (hnext : ∀ tail, next c (text ++ tail) = .ok (.part piece, tail)) :
    JoinsAsComponent (c :: text) := by
  intro tail items rest h
  refine ⟨.part piece :: items, groupTags items, h.part (hnext tail), ?_, rfl⟩
  rw [groupTags_part, hsort]

/-- A component that ends in a word, which takes the letters after it along. -/
theorem joinsAsComponent_of_word (lead : List Char) (make : List Char → Part) {word : List Char}
    (hsort : ∀ name, (make name).sort = .component) (hword : Word word)
    (hnext : ∀ name tail after, Selector.word 0 (word ++ tail) = .ok (word ++ name, after) →
      (∀ more, after ≠ '(' :: more) →
      ∃ c more, lead ++ word ++ tail = c :: more ∧
        next c more = .ok (.part (make (word ++ name)), after)) :
    JoinsAsComponent (lead ++ word) := by
  intro tail items rest h
  obtain ⟨along, after, others, hread, hothers, hfits⟩ := h.exists_word hword.letters
  obtain ⟨c, more, htext, hpart⟩ := hnext along tail after hread hothers.head_ne_paren
  refine ⟨.part (make (word ++ along)) :: others, groupTags others, ?_, ?_, hfits⟩
  · rw [htext]
    exact hothers.part hpart
  · rw [groupTags_part, hsort]

theorem name_eq_ok_of_word {lead : Nat} {missing : Fault} {text piece rest : List Char}
    (h : word 0 text = .ok (piece, rest)) (hne : piece ≠ []) :
    name lead missing text = .ok (piece, rest) := by
  unfold name
  rw [h]
  cases piece with
  | nil => exact absurd rfl hne
  | cons => rfl

/-- The first character of letters is not one of the marks that decide how a text is read. -/
theorem Letters.head_ne {c : Char} {rest : List Char} (h : Letters (c :: rest)) :
    c ≠ '{' ∧ c ≠ ':' := by
  cases h with
  | character hc =>
    constructor
    all_goals
      intro heq
      subst heq
      exact absurd (isWordCharacter_iff.2 hc) (by decide)
  | escape | interpolation => decide

theorem joinsAsComponent_className {word : List Char} (hword : Word word) :
    JoinsAsComponent ('.' :: word) := by
  refine joinsAsComponent_of_word ['.'] .className (fun _ => rfl) hword ?_
  intro name tail after hread _
  refine ⟨'.', word ++ tail, rfl, ?_⟩
  show readClass (word ++ tail) = _
  rw [readClass, name_eq_ok_of_word hread (by simp [hword.ne_nil])]
  rfl

theorem joinsAsComponent_id {word : List Char} (hword : Word word) :
    JoinsAsComponent ('#' :: word) := by
  refine joinsAsComponent_of_word ['#'] .id (fun _ => rfl) hword ?_
  intro name tail after hread _
  refine ⟨'#', word ++ tail, rfl, ?_⟩
  show readHash (word ++ tail) = _
  unfold readHash
  split
  next hbrace =>
    obtain ⟨c, letters, rfl⟩ := List.exists_cons_of_ne_nil hword.ne_nil
    exact absurd (List.cons.inj hbrace).1 (Letters.head_ne hword.letters).1
  · rw [name_eq_ok_of_word hread (by simp [hword.ne_nil])]
    rfl

theorem joinsAsComponent_tag {word : List Char} (hword : Word word) : JoinsAsComponent word := by
  refine joinsAsComponent_of_word [] .tag (fun _ => rfl) hword ?_
  intro name tail after hread _
  obtain ⟨c, letters, rfl⟩ := List.exists_cons_of_ne_nil hword.ne_nil
  refine ⟨c, letters ++ tail, rfl, ?_⟩
  rw [next_of_startsWord (startsWord_of_letters hword.letters), readTag]
  rw [List.cons_append] at hread
  rw [hread]
  rfl

/-- How a pseudo-class is read up to its name. -/
theorem exists_next_of_pseudo (double : Bool) {word : List Char} (hword : Word word) (tail : List Char) :
    ∃ more, (Part.pseudo double word).text ++ tail = ':' :: more ∧
      next ':' more = readPseudoName double (word ++ tail) := by
  obtain ⟨c, letters, rfl⟩ := List.exists_cons_of_ne_nil hword.ne_nil
  cases double with
  | false =>
    refine ⟨c :: letters ++ tail, rfl, ?_⟩
    show readPseudo (c :: (letters ++ tail)) = _
    unfold readPseudo
    split
    next hcolon => exact absurd (List.cons.inj hcolon).1 (Letters.head_ne hword.letters).2
    · rfl
  | true => exact ⟨':' :: c :: letters ++ tail, rfl, rfl⟩

/-- How the colons of a pseudo-class are read before a word. -/
theorem exists_next_of_colons {lead word : List Char} (hlead : lead ∈ colons) (hword : Word word) :
    ∃ double, ∀ tail, ∃ more, lead ++ word ++ tail = ':' :: more ∧
      next ':' more = readPseudoName double (word ++ tail) := by
  simp only [colons, List.mem_cons, List.not_mem_nil, or_false] at hlead
  rcases hlead with rfl | rfl
  · exact ⟨false, exists_next_of_pseudo false hword⟩
  · exact ⟨true, exists_next_of_pseudo true hword⟩

theorem joinsAsComponent_pseudo {lead word : List Char} (hlead : lead ∈ colons)
    (hword : Word word) : JoinsAsComponent (lead ++ word) := by
  obtain ⟨double, hnext⟩ := exists_next_of_colons hlead hword
  refine joinsAsComponent_of_word lead (.pseudo double) (fun _ => rfl) hword ?_
  intro name tail after hread hparen
  obtain ⟨more, htext, hmore⟩ := hnext tail
  refine ⟨':', more, htext, ?_⟩
  rw [hmore, readPseudoName, name_eq_ok_of_word hread (by simp [hword.ne_nil])]
  split
  next heq => cases heq
  next heq =>
    cases heq
    exact absurd rfl (hparen _)
  next heq =>
    cases heq
    rfl

/-- A pseudo-class with a list, or nothing, in its parentheses. -/
theorem joinsAsComponent_call {lead word arguments : List Char} (hlead : lead ∈ colons)
    (hword : Word word)
    (harguments : ∀ tail, ∃ first others, (∀ double, (Item.call double word first others).Valid) ∧
      LexesAs (arguments ++ ')' :: tail) (listLexemes first others) (')' :: tail)) :
    JoinsAsComponent (lead ++ word ++ '(' :: arguments ++ [')']) := by
  intro tail items rest h
  obtain ⟨first, others, hvalid, hlexes⟩ := harguments tail
  obtain ⟨double, hnext⟩ := exists_next_of_colons hlead hword
  obtain ⟨more, htext, hmore⟩ := hnext ('(' :: (arguments ++ ')' :: tail))
  have hread : Selector.word 0 (word ++ '(' :: (arguments ++ ')' :: tail)) =
      .ok (word, '(' :: (arguments ++ ')' :: tail)) := by
    rw [word_append_of_letters hword.letters, word_of_not_startsWord (by simp [StartsWord]; decide)]
    simp [Except.map]
  have hcall : next ':' more = .ok (.call double word, arguments ++ ')' :: tail) := by
    rw [hmore, readPseudoName, name_eq_ok_of_word hread hword.ne_nil]
    rfl
  have hclose : LexesAs (')' :: tail) (.close :: groupLexemes items) rest := .cons rfl h.lexes
  refine ⟨.call double word first others :: items, groupTags items, ⟨?_, ?_, h.ends⟩, rfl, rfl⟩
  · have hall := LexesAs.cons hcall (hlexes.trans hclose)
    rw [← htext] at hall
    simpa [groupLexemes, Item.lexemes, listLexemes] using hall
  · exact List.forall_mem_cons.2 ⟨hvalid double, h.valid⟩

theorem lexesAs_blanks {blanks : List Char} (h : ∀ c ∈ blanks, isSpace c) (rest : List Char) :
    LexesAs (blanks ++ rest) (groupLexemes (blanks.map .blank)) rest := by
  induction blanks with
  | nil => exact .refl rest
  | cons c blanks ih =>
    obtain ⟨hc, hblanks⟩ := List.forall_mem_cons.1 h
    exact .cons (next_of_isSpace hc _) (ih hblanks)

theorem joinsAsComponent_emptyCall {lead word blanks : List Char} (hlead : lead ∈ colons)
    (hword : Word word) (hblanks : ∀ c ∈ blanks, isSpace c) :
    JoinsAsComponent (lead ++ word ++ '(' :: blanks ++ [')']) := by
  refine joinsAsComponent_call hlead hword fun tail => ⟨blanks.map .blank, [], ?_, ?_⟩
  · intro double
    refine .emptyCall hword (by simp [groupTags, Item.sort?]) fun item hitem => ?_
    obtain ⟨c, hc, rfl⟩ := List.mem_map.1 hitem
    exact .blank (hblanks c hc)
  · simpa [listLexemes, othersLexemes] using lexesAs_blanks hblanks (')' :: tail)

theorem joinsAsComponent_quoted {text : List Char} (h : Quoted text) : JoinsAsComponent text := by
  cases h with
  | @mk quote tail hquote htail =>
    refine joinsAsComponent_of_next (.string quote tail) rfl fun rest => ?_
    have hread : next quote (tail ++ rest) = readString quote (tail ++ rest) := by
      rcases hquote with rfl | rfl <;> rfl
    have hescape : quote ≠ '\\' := ne_backslash_of_isQuote (isQuote_iff.2 hquote)
    rw [hread, readString, quotedTail_append_of_quotedTail hescape htail]

theorem joinsAsComponent_attr {content : List Char} (h : Content content)
    (hblank : trim content ≠ []) : JoinsAsComponent ('[' :: content ++ [']']) := by
  refine joinsAsComponent_of_next (.attr content) rfl fun tail => ?_
  show readAttribute (content ++ [']'] ++ tail) = _
  rw [readAttribute, List.append_assoc, List.singleton_append, attributeBody_append_of_content h]
  exact if_neg hblank

/-! ## Derived texts are recognised -/

/-- What a text that is derived from the symbol is read as. -/
def Recognised : Symbol → List Char → Prop
  | .selectors, text => ∀ rest, EndsGroup rest →
    ∃ first others, ValidList first others ∧ LexesAs (text ++ rest) (listLexemes first others) rest
  | .group, text => ∀ rest, EndsGroup rest →
    ∃ items, GroupFits items ∧ Reads (text ++ rest) items rest
  | .items tags, text => ∀ pending rest, fits pending tags → EndsGroup rest →
    ∃ items, Reads (text ++ rest) items rest ∧ fits pending (groupTags items) ∧
      (tags ≠ [] → groupTags items ≠ [])
  | .component, text => JoinsAsComponent text

theorem recognised_comma {first rest : List Char} (hfirst : Recognised .group first)
    (hrest : Recognised .selectors rest) : Recognised .selectors (first ++ ',' :: rest) := by
  intro after hafter
  obtain ⟨group, others, hlist, hothers⟩ := hrest after hafter
  obtain ⟨items, hfits, hitems⟩ := hfirst (',' :: (rest ++ after)) (.comma _)
  refine ⟨items, group :: others, hlist.cons hfits hitems.valid, ?_⟩
  have hcomma : LexesAs (',' :: (rest ++ after)) (.comma :: listLexemes group others) after :=
    .cons rfl hothers
  have hall := hitems.lexes.trans hcomma
  simpa [listLexemes, othersLexemes] using hall

theorem recognised_comment {tags : List Tag} {text rest : List Char} (htext : Comment text)
    (hrest : Recognised (.items tags) rest) :
    Recognised (.items (.comment :: tags)) (text ++ rest) := by
  intro pending after hfits hafter
  obtain ⟨items, hitems, hpending, -⟩ := hrest pending after hfits hafter
  cases htext with
  | @mk tail htail =>
    refine ⟨.part (.comment tail) :: items, ?_, hpending, fun _ => List.cons_ne_nil _ _⟩
    have hnext : next '/' ('*' :: tail ++ rest ++ after) =
        .ok (.part (.comment tail), rest ++ after) := by
      show readComment ('*' :: (tail ++ rest ++ after)) = _
      rw [readComment, List.append_assoc, commentTail_append_of_closesComment htail]
    exact hitems.part hnext

/-- After a combinator there is no other one. -/
theorem Reads.head_ne_child {text rest : List Char} {items : List Item} (h : Reads text items rest)
    (hfits : fits true (groupTags items)) (more : List Char) : text ≠ '>' :: '>' :: more := by
  intro heq
  subst heq
  have hnext : ∃ sign after, next '>' ('>' :: more) = .ok (.part (.combinator sign), after) := by
    show ∃ sign after, readChild ('>' :: more) = .ok (.part (.combinator sign), after)
    unfold readChild
    split
    · exact ⟨.deep, _, rfl⟩
    · exact ⟨.child, _, rfl⟩
  obtain ⟨sign, after, hsign⟩ := hnext
  obtain ⟨others, rfl, -⟩ := h.exists_of_next hsign
  cases hfits

theorem recognised_combinator {tags : List Tag} {text rest : List Char} (htext : text ∈ signs)
    (hrest : Recognised (.items tags) rest) :
    Recognised (.items (.combinator :: tags)) (text ++ rest) := by
  intro pending after hfits hafter
  cases pending with
  | true => cases hfits
  | false =>
    obtain ⟨items, hitems, hpending, -⟩ := hrest true after hfits hafter
    suffices hnext : ∃ c more sign, text ++ rest ++ after = c :: more ∧
        next c more = .ok (.part (.combinator sign), rest ++ after) by
      obtain ⟨c, more, sign, hmore, hsign⟩ := hnext
      refine ⟨.part (.combinator sign) :: items, ?_, hpending, fun _ => List.cons_ne_nil _ _⟩
      rw [hmore]
      exact hitems.part hsign
    simp only [signs, List.mem_cons, List.not_mem_nil, or_false] at htext
    rcases htext with rfl | rfl | rfl | rfl
    · exact ⟨'>', _, .deep, rfl, rfl⟩
    · refine ⟨'>', _, .child, rfl, ?_⟩
      show readChild (rest ++ after) = _
      unfold readChild
      split
      next heq => exact absurd heq (hitems.head_ne_child hpending _)
      · rfl
    · exact ⟨'+', _, .adjacent, rfl, rfl⟩
    · exact ⟨'~', _, .sibling, rfl, rfl⟩

theorem recognised_item {tags : List Tag} {text rest : List Char}
    (htext : Recognised .component text) (hrest : Recognised (.items tags) rest) :
    Recognised (.items (.component :: tags)) (text ++ rest) := by
  intro pending after hfits hafter
  obtain ⟨items, hitems, hpending, -⟩ := hrest false after hfits hafter
  obtain ⟨others, tags', hothers, htags, hsame⟩ := htext (rest ++ after) items after hitems
  refine ⟨others, ?_, ?_, ?_⟩
  · rw [List.append_assoc]
    exact hothers
  · rw [htags]
    exact hsame.trans hpending
  · rw [htags]
    exact fun _ => List.cons_ne_nil _ _

theorem recognised_of_derives {goal : Symbol} {text : List Char} (h : Derives goal text) :
    Recognised goal text := by
  induction h with
  | last _ ih =>
    intro rest hrest
    obtain ⟨items, hfits, hitems⟩ := ih rest hrest
    refine ⟨items, [], ⟨by simpa using hfits, by simpa using hitems.valid⟩, ?_⟩
    simpa [listLexemes, othersLexemes] using hitems.lexes
  | comma _ _ hfirst hrest => exact recognised_comma hfirst hrest
  | group _ hne hseparated ih =>
    intro rest hrest
    obtain ⟨items, hitems, hfits, hsome⟩ := ih false rest (separated_iff_fits.1 hseparated) hrest
    exact ⟨items, ⟨hsome hne, hfits⟩, hitems⟩
  | done => exact fun pending rest _ hrest => ⟨[], .nil hrest, rfl, fun hne => absurd rfl hne⟩
  | blank hc _ ih =>
    intro pending rest hfits hrest
    obtain ⟨items, hitems, hpending, hsome⟩ := ih pending rest hfits hrest
    exact ⟨.blank _ :: items, hitems.blank hc, hpending, hsome⟩
  | comment htext _ ih => exact recognised_comment htext ih
  | combinator htext _ ih => exact recognised_combinator htext ih
  | item _ _ htext hrest => exact recognised_item htext hrest
  | className hword => exact joinsAsComponent_className hword
  | id hword => exact joinsAsComponent_id hword
  | tag hword => exact joinsAsComponent_tag hword
  | nesting => exact joinsAsComponent_of_next .nesting rfl fun _ => rfl
  | universal => exact joinsAsComponent_of_next .universal rfl fun _ => rfl
  | quoted htext => exact joinsAsComponent_quoted htext
  | attr hcontent hblank => exact joinsAsComponent_attr hcontent hblank
  | pseudo hlead hword => exact joinsAsComponent_pseudo hlead hword
  | emptyCall hlead hword hblanks => exact joinsAsComponent_emptyCall hlead hword hblanks
  | call hlead hword _ ih =>
    refine joinsAsComponent_call hlead hword fun tail => ?_
    obtain ⟨first, others, hlist, hlexes⟩ := ih (')' :: tail) (.close tail)
    exact ⟨first, others, fun double => .call hword hlist.fits hlist.items, hlexes⟩

/-- A selector parses if and only if it is derived in the grammar. -/
theorem parse_isOk_iff_derives (selector : String) :
    (∃ tree, parse selector = .ok tree) ↔ Derives .selectors selector.toList := by
  constructor
  · intro hok
    rcases hok with ⟨tree, h⟩
    obtain ⟨first, others, hlist, hlexemes, -⟩ := parse_eq_ok_iff.1 h
    rw [← written_of_lexemes hlexemes]
    exact derives_selectors hlist.fits fun group hgroup item hitem =>
      derivable_of_valid (hlist.items group hgroup item hitem)
  · intro h
    obtain ⟨first, others, hlist, hlexes⟩ := recognised_of_derives h [] .nil
    refine ⟨_, parse_eq_ok_iff.2 ⟨first, others, hlist, ?_, rfl⟩⟩
    rw [LexesAs, lexemes_nil] at hlexes
    simpa using hlexes

end SelectorLint.Selector
