import SelectorLint.Proofs.Selector.Grammar
import SelectorLint.Proofs.Text.Characters

/-!
# Readers and the leaves of the grammar

Each reader of the lexer against the predicate of the grammar that it reads. There are two lemmas for
each: what a reader takes has the form that the grammar asks for, and a text of that form is taken
whole, whatever comes after it. A word is the exception in the second: it is taken together with the
word that follows it, if one does (`word_append_of_letters`).
-/

namespace SelectorLint.Selector

open Text Grammar

theorem isWordCharacter_iff {c : Char} : isWordCharacter c ↔ IsWordCharacter c := by
  by_cases hc : 128 ≤ c.toNat
  · simp [isWordCharacter, IsWordCharacter, hc]
  · rw [IsWordCharacter, isAlphanumeric_of_lt (by omega)]
    simp [isWordCharacter, or_assoc]

/-! ## Results with more in front -/

@[simp] theorem prepend_nil (result : List Char × List Char) : prepend [] result = result := rfl

@[simp] theorem prepend_mk (front piece rest : List Char) :
    prepend front (piece, rest) = (front ++ piece, rest) := rfl

@[simp] theorem prepend_comp_prepend (first second : List Char) :
    prepend first ∘ prepend second = prepend (first ++ second) := by
  funext result
  simp [prepend]

theorem map_prepend_nil (result : Option (List Char × List Char)) :
    result.map (prepend []) = result := by
  cases result <;> rfl

theorem exceptMap_prepend_nil {Error : Type} (result : Except Error (List Char × List Char)) :
    result.map (prepend []) = result := by
  cases result <;> rfl

theorem exceptMap_prepend_prepend {Error : Type} (first second : List Char)
    (result : Except Error (List Char × List Char)) :
    (result.map (prepend second)).map (prepend first) = result.map (prepend (first ++ second)) := by
  cases result <;> simp [Except.map, prepend]

/-! ## Interpolations -/

/-- The text closes one brace after the other, `inner + 1` of them, and ends with the last. -/
def ClosesBraces : Nat → List Char → Prop
  | 0, text => ∃ body, Balanced body ∧ text = body ++ ['}']
  | inner + 1, text => ∃ body tail, Balanced body ∧ ClosesBraces inner tail ∧ text = body ++ '}' :: tail

theorem closesBraces_cons {inner : Nat} {c : Char} {text : List Char} (hopen : c ≠ '{')
    (hclose : c ≠ '}') (h : ClosesBraces inner text) : ClosesBraces inner (c :: text) := by
  cases inner with
  | zero =>
    obtain ⟨body, hbody, rfl⟩ := h
    exact ⟨c :: body, .character hopen hclose hbody, rfl⟩
  | succ inner =>
    obtain ⟨body, tail, hbody, htail, rfl⟩ := h
    exact ⟨c :: body, tail, .character hopen hclose hbody, htail, rfl⟩

theorem closesBraces_open {inner : Nat} {text : List Char} (h : ClosesBraces (inner + 1) text) :
    ClosesBraces inner ('{' :: text) := by
  obtain ⟨body, tail, hbody, htail, rfl⟩ := h
  cases inner with
  | zero =>
    obtain ⟨after, hafter, rfl⟩ := htail
    exact ⟨'{' :: body ++ '}' :: after, .braces hbody hafter, by simp⟩
  | succ inner =>
    obtain ⟨after, rest, hafter, hrest, rfl⟩ := htail
    exact ⟨'{' :: body ++ '}' :: after, rest, .braces hbody hafter, hrest, by simp⟩

theorem closesBraces_of_interpolationTail {inner : Nat} {text piece rest : List Char}
    (h : interpolationTail inner text = some (piece, rest)) : ClosesBraces inner piece := by
  fun_induction interpolationTail inner text generalizing piece rest with
  | case1 => simp at h
  | case2 inner tail ih =>
    obtain ⟨⟨body, after⟩, hbody, heq⟩ := Option.map_eq_some_iff.1 h
    cases heq
    exact closesBraces_open (ih hbody)
  | case3 =>
    cases h
    exact ⟨[], .nil, rfl⟩
  | case4 tail outer ih =>
    obtain ⟨⟨body, after⟩, hbody, heq⟩ := Option.map_eq_some_iff.1 h
    cases heq
    exact ⟨[], body, .nil, ih hbody, rfl⟩
  | case5 inner c tail hopen hclose ih =>
    obtain ⟨⟨body, after⟩, hbody, heq⟩ := Option.map_eq_some_iff.1 h
    cases heq
    exact closesBraces_cons hopen hclose (ih hbody)

/-- Braces in pairs leave the number of open ones as it is. -/
theorem interpolationTail_append_of_balanced {body : List Char} (h : Balanced body) (inner : Nat)
    (rest : List Char) :
    interpolationTail inner (body ++ rest) = (interpolationTail inner rest).map (prepend body) := by
  induction h generalizing inner rest with
  | nil => exact (map_prepend_nil _).symm
  | @character c tail hopen hclose _ ih =>
    rw [List.cons_append, interpolationTail, ih]
    · simp
    · exact hopen
    · exact hclose
  | @braces first tail _ _ ihfirst ihtail =>
    have hassoc : '{' :: first ++ '}' :: tail ++ rest = '{' :: (first ++ '}' :: (tail ++ rest)) := by
      simp
    rw [hassoc, interpolationTail, ihfirst, interpolationTail, ihtail]
    simp

theorem interpolationTail_of_balanced {body : List Char} (h : Balanced body) (rest : List Char) :
    interpolationTail 0 (body ++ '}' :: rest) = some (body ++ ['}'], rest) := by
  rw [interpolationTail_append_of_balanced h, interpolationTail]
  rfl

/-! ## Words -/

theorem letters_of_word {before : Nat} {text piece rest : List Char}
    (h : word before text = .ok (piece, rest)) : Letters piece := by
  fun_induction word before text generalizing piece rest with
  | case1 | case7 =>
    cases h
    exact .nil
  | case2 | case4 => cases h
  | case3 before c tail ih =>
    obtain ⟨⟨body, after⟩, hbody, heq⟩ := map_eq_ok_iff.1 h
    cases heq
    exact .escape (ih hbody)
  | case5 before tail inner after hinner ih =>
    obtain ⟨⟨body, final⟩, hbody, heq⟩ := map_eq_ok_iff.1 h
    cases heq
    obtain ⟨braced, hbraced, rfl⟩ := closesBraces_of_interpolationTail hinner
    simpa using Letters.interpolation hbraced (ih hbody)
  | case6 before c tail _ _ _ hc ih =>
    obtain ⟨⟨body, after⟩, hbody, heq⟩ := map_eq_ok_iff.1 h
    cases heq
    exact .character (isWordCharacter_iff.1 hc) (ih hbody)

theorem not_isWordCharacter_backslash : ¬IsWordCharacter '\\' := by
  rw [← isWordCharacter_iff]
  decide

theorem not_isWordCharacter_hash : ¬IsWordCharacter '#' := by
  rw [← isWordCharacter_iff]
  decide

theorem word_cons_of_isWordCharacter {c : Char} (hc : IsWordCharacter c) (before : Nat)
    (rest : List Char) :
    word before (c :: rest) = (word (before + c.utf8Size) rest).map (prepend [c]) := by
  have hescape : c ≠ '\\' := by
    intro heq
    subst heq
    exact not_isWordCharacter_backslash hc
  have hhash : c ≠ '#' := by
    intro heq
    subst heq
    exact not_isWordCharacter_hash hc
  rw [word.eq_def]
  simp [hescape, hhash, isWordCharacter_iff.2 hc]

theorem word_interpolation {rest tail after : List Char}
    (h : interpolationTail 0 rest = some (tail, after)) (before : Nat) :
    word before ('#' :: '{' :: rest) =
      (word (before + 2 + byteLength tail) after).map (prepend ('#' :: '{' :: tail)) := by
  rw [word]
  split
  next hnone =>
    rw [h] at hnone
    cases hnone
  next hsome =>
    rw [h] at hsome
    cases hsome
    rfl

/-- Letters are read, and the reading goes on after them. -/
theorem word_append_of_letters {text : List Char} (h : Letters text) (before : Nat)
    (rest : List Char) :
    word before (text ++ rest) = (word (before + byteLength text) rest).map (prepend text) := by
  induction h generalizing before with
  | nil => exact (exceptMap_prepend_nil _).symm
  | @character c tail hc _ ih =>
    rw [List.cons_append, word_cons_of_isWordCharacter hc, ih, exceptMap_prepend_prepend,
      byteLength_cons, Nat.add_assoc]
    rfl
  | @escape c tail _ ih =>
    have hbytes : before + byteLength ('\\' :: c :: tail) =
        before + 1 + c.utf8Size + byteLength tail := by
      simp [show ('\\' : Char).utf8Size = 1 from rfl]
      omega
    rw [List.cons_append, List.cons_append, word, ih, exceptMap_prepend_prepend, hbytes]
    rfl
  | @interpolation inner tail hinner _ ih =>
    have hassoc : '#' :: '{' :: inner ++ '}' :: tail ++ rest =
        '#' :: '{' :: (inner ++ '}' :: (tail ++ rest)) := by simp
    have hbytes : before + byteLength ('#' :: '{' :: inner ++ '}' :: tail) =
        before + 2 + byteLength (inner ++ ['}']) + byteLength tail := by
      simp [show ('#' : Char).utf8Size = 1 from rfl, show ('{' : Char).utf8Size = 1 from rfl]
      omega
    rw [hassoc, word_interpolation (interpolationTail_of_balanced hinner _), ih,
      exceptMap_prepend_prepend, hbytes]
    simp

/-- A word is not read past the place where one reading of it ends. -/
theorem word_rest {before : Nat} {text piece rest : List Char}
    (h : word before text = .ok (piece, rest)) (other : Nat) : word other rest = .ok ([], rest) := by
  fun_induction word before text generalizing piece rest with
  | case1 =>
    cases h
    rw [word]
  | case2 | case4 => cases h
  | case3 _ _ _ ih | case5 _ _ _ _ _ ih | case6 _ _ _ _ _ _ _ ih =>
    obtain ⟨⟨body, after⟩, hbody, heq⟩ := map_eq_ok_iff.1 h
    cases heq
    exact ih hbody
  | case7 before c tail _ hescape hhash hc =>
    cases h
    rw [word.eq_def]
    simp_all

/-- The bytes before a word matter only where it fails. -/
theorem word_eq_ok_of_word_eq_ok {before : Nat} {text piece rest : List Char}
    (h : word before text = .ok (piece, rest)) (other : Nat) :
    word other text = .ok (piece, rest) := by
  rw [← word_append h, word_append_of_letters (letters_of_word h), word_rest h]
  simp [Except.map]

/-! ## Quoted texts -/

theorem quotedTail_of_quotedTail {quote : Char} {text piece rest : List Char}
    (h : quotedTail true quote text = some (piece, rest)) : QuotedTail quote piece := by
  fun_induction quotedTail true quote text generalizing piece rest with
  | case1 => cases h
  | case2 c tail ih =>
    obtain ⟨⟨body, after⟩, hbody, heq⟩ := Option.map_eq_some_iff.1 h
    cases heq
    exact .escape (ih hbody)
  | case3 tail =>
    cases h
    exact .close
  | case4 => cases h
  | case5 c tail hescape hquote _ ih =>
    obtain ⟨⟨body, after⟩, hbody, heq⟩ := Option.map_eq_some_iff.1 h
    cases heq
    refine .character hquote ?_ (ih hbody)
    intro heq
    subst heq
    cases tail with
    | nil => cases hbody
    | cons next tail => exact hescape next tail rfl rfl

theorem quotedTail_append_of_quotedTail {quote : Char} (hquote : quote ≠ '\\') {tail : List Char}
    (h : QuotedTail quote tail) (rest : List Char) :
    quotedTail true quote (tail ++ rest) = some (tail, rest) := by
  induction h with
  | close => simp [quotedTail, hquote]
  | escape _ ih => simp [quotedTail, ih]
  | @character c tail hc hescape _ ih => simp [quotedTail, hc, hescape, ih]

theorem getLast?_of_quotedTail {quote : Char} {tail : List Char} (h : QuotedTail quote tail) :
    tail.getLast? = some quote := by
  induction h with
  | close => rfl
  | escape _ ih =>
    rw [List.getLast?_cons, List.getLast?_cons, ih]
    rfl
  | character _ _ _ ih =>
    rw [List.getLast?_cons, ih]
    rfl

theorem ne_backslash_of_isQuote {c : Char} (h : isQuote c) : c ≠ '\\' := by
  intro heq
  subst heq
  simp [isQuote] at h

/-! ## Comments -/

theorem closesComment_cons {c : Char} {tail : List Char} (hnot : ¬(c = '*' ∧ tail.head? = some '/'))
    (h : ClosesComment tail) : ClosesComment (c :: tail) := by
  obtain ⟨⟨body, rfl⟩, hfirst⟩ := h
  refine ⟨⟨c :: body, rfl⟩, ?_⟩
  rintro (_ | ⟨d, before⟩) after heq
  · simp only [List.nil_append, List.cons.injEq] at heq
    exact absurd ⟨heq.1, by rw [heq.2]; rfl⟩ hnot
  · simp only [List.cons_append, List.cons.injEq] at heq
    exact hfirst before after heq.2

theorem closesComment_of_commentTail {text piece rest : List Char}
    (h : commentTail text = some (piece, rest)) : ClosesComment piece := by
  fun_induction commentTail text generalizing piece rest with
  | case1 => cases h
  | case2 tail =>
    cases h
    refine ⟨⟨[], rfl⟩, ?_⟩
    rintro (_ | ⟨d, _ | ⟨e, before⟩⟩) after heq
    · simpa using heq.symm
    · simp at heq
    · simp at heq
  | case3 c tail hnot ih =>
    obtain ⟨⟨body, after⟩, hbody, heq⟩ := Option.map_eq_some_iff.1 h
    cases heq
    refine closesComment_cons ?_ (ih hbody)
    intro hends
    rcases hends with ⟨rfl, hhead⟩
    rw [← commentTail_append hbody] at hnot
    cases body with
    | nil => simp at hhead
    | cons d body =>
      obtain rfl : d = '/' := by simpa using hhead
      exact hnot (body ++ after) rfl rfl

theorem commentTail_append_of_closesComment {tail : List Char} (h : ClosesComment tail)
    (rest : List Char) : commentTail (tail ++ rest) = some (tail, rest) := by
  obtain ⟨⟨body, rfl⟩, hfirst⟩ := h
  induction body with
  | nil => simp [commentTail]
  | cons c body ih =>
    have hnot : ∀ after, c = '*' → body ++ ['*', '/'] ++ rest = '/' :: after → False := by
      rintro after rfl heq
      cases body with
      | nil => simp at heq
      | cons d body =>
        obtain rfl : d = '/' := by simpa using congrArg List.head? heq
        simpa using hfirst [] (body ++ ['*', '/']) rfl
    have htail := ih fun before after heq => hfirst (c :: before) after (by rw [List.cons_append, heq]; rfl)
    rw [List.cons_append, List.cons_append, commentTail, htail]
    · rfl
    · exact hnot

/-! ## Attributes -/

theorem content_of_attributeBody {before : Nat} {text body rest : List Char}
    (h : attributeBody before text = .ok (body, rest)) : Content body := by
  fun_induction attributeBody before text generalizing body rest with
  | case1 | case3 => cases h
  | case2 =>
    cases h
    exact .nil
  | case4 before c tail hclose piece after halong ih =>
    obtain ⟨⟨inner, final⟩, hinner, heq⟩ := map_eq_ok_iff.1 h
    cases heq
    unfold alongInBrackets at halong
    split at halong
    next hquote =>
      exact .quoted (.mk (isQuote_iff.1 hquote) (quotedTail_of_quotedTail halong)) (ih hinner)
    next hquote =>
      cases halong
      rw [isQuote_iff, not_or] at hquote
      refine .character ?_ hquote.1 hquote.2 (ih hinner)
      intro heq
      subst heq
      exact hclose rfl

theorem attributeBody_cons {c : Char} (hclose : c ≠ ']') {rest tail after : List Char}
    (h : alongInBrackets c rest = some (tail, after)) (before : Nat) :
    attributeBody before (c :: rest) =
      (attributeBody (before + c.utf8Size + byteLength tail) after).map (prepend (c :: tail)) := by
  rw [attributeBody.eq_def]
  split
  next heq => cases heq
  next heq => exact absurd (List.cons.inj heq).1 hclose
  next heq =>
    cases heq
    split
    next hnone =>
      rw [h] at hnone
      cases hnone
    next hsome =>
      rw [h] at hsome
      cases hsome
      rfl

theorem attributeBody_append_of_content {content : List Char} (h : Content content) (before : Nat)
    (rest : List Char) : attributeBody before (content ++ ']' :: rest) = .ok (content, rest) := by
  induction h generalizing before with
  | nil => simp [attributeBody]
  | @quoted text tail htext _ ih =>
    obtain @⟨quote, inner, hquote, hinner⟩ := htext
    have hsort : isQuote quote := isQuote_iff.2 hquote
    have halong : alongInBrackets quote (inner ++ (tail ++ ']' :: rest)) =
        some (inner, tail ++ ']' :: rest) := by
      rw [alongInBrackets, if_pos hsort]
      exact quotedTail_append_of_quotedTail (ne_backslash_of_isQuote hsort) hinner _
    have hclose : quote ≠ ']' := by
      intro heq
      subst heq
      simp [isQuote] at hsort
    have hassoc : quote :: inner ++ tail ++ ']' :: rest =
        quote :: (inner ++ (tail ++ ']' :: rest)) := by simp
    rw [hassoc, attributeBody_cons hclose halong, ih]
    rfl
  | @character c tail hclose hdouble hsingle _ ih =>
    have halong : alongInBrackets c (tail ++ ']' :: rest) = some ([], tail ++ ']' :: rest) := by
      rw [alongInBrackets, if_neg]
      rw [isQuote_iff]
      exact not_or.2 ⟨hdouble, hsingle⟩
    rw [List.cons_append, attributeBody_cons hclose halong, ih]
    rfl

end SelectorLint.Selector
