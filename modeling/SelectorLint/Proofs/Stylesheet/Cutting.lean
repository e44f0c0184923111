import SelectorLint.Stylesheet.Lexeme
import SelectorLint.Proofs.Selector.Leaves

/-!
# Cutting a stylesheet into lexemes

The lexer of stylesheets as a relation. `Cuts` says that a text begins with some lexemes and goes on with
a rest, and how many brackets are open before and after. Cuts can be put together and taken apart, and
the result of the lexer is one of them (`exists_cuts`).

There are three groups of results.

* Where a lexeme ends. What is read first in a text depends on what follows it in three cases only: a
  slash, the sign `#` and a comment up to the end of the line. `EndsBefore` says what they ask of the
  rest. A lexeme that was read ends before its rest (`endsBefore_of_next`), and it is read again before
  every rest that it ends before (`next_append`).
* Cuts and the lexer.
* Masks. The text that stands for a lexeme in a heading has as many bytes as the lexeme
  (`byteLength_masked`).
-/

namespace SelectorLint.Stylesheet

open Text

/-! ## Delimited pieces before another rest -/

theorem quotedTail_append_of_quotedTail {lineFeeds : Bool} {quote : Char} (hquote : quote ≠ '\\')
    {text piece rest : List Char} (h : quotedTail lineFeeds quote text = some (piece, rest))
    (other : List Char) : quotedTail lineFeeds quote (piece ++ other) = some (piece, other) := by
  fun_induction quotedTail lineFeeds quote text generalizing piece rest with
  | case1 => cases h
  | case2 c tail ih =>
    obtain ⟨⟨body, after⟩, hbody, heq⟩ := Option.map_eq_some_iff.1 h
    cases heq
    simp [quotedTail, ih hbody]
  | case3 tail =>
    cases h
    simp [quotedTail, hquote]
  | case4 => cases h
  | case5 c tail hescape hc hline ih =>
    obtain ⟨⟨body, after⟩, hbody, heq⟩ := Option.map_eq_some_iff.1 h
    cases heq
    have hne : c ≠ '\\' := by
      intro heq
      subst heq
      cases tail with
      | nil => cases hbody
      | cons next tail => exact hescape next tail rfl rfl
    simp_all [quotedTail]

theorem interpolationTail_cons {c : Char} (hopen : c ≠ '{') (hclose : c ≠ '}')
    (hquote : ¬isQuote c) (before inner : Nat) (rest : List Char) :
    interpolationTail before inner (c :: rest) =
      (interpolationTail (before + c.utf8Size) inner rest).map (prepend [c]) := by
  rw [interpolationTail]
  · rw [if_neg hquote]
  · exact hopen
  · exact hclose

theorem interpolationTail_quoted {c : Char} (hquote : isQuote c) {rest tail after : List Char}
    (h : quotedTail false c rest = some (tail, after)) (before inner : Nat) :
    interpolationTail before inner (c :: rest) =
      (interpolationTail (before + c.utf8Size + byteLength tail) inner after).map
        (prepend (c :: tail)) := by
  rw [interpolationTail]
  · rw [if_pos hquote]
    split
    next hnone =>
      rw [h] at hnone
      cases hnone
    next hsome =>
      rw [h] at hsome
      cases hsome
      rfl
  all_goals
    intro heq
    subst heq
    simp [isQuote] at hquote

theorem interpolationTail_append_of_interpolationTail {before inner : Nat}
    {text piece rest : List Char} (h : interpolationTail before inner text = .ok (piece, rest))
    (other : List Char) : interpolationTail before inner (piece ++ other) = .ok (piece, other) := by
  fun_induction interpolationTail before inner text generalizing piece rest with
  | case1 | case5 => cases h
  | case2 before inner tail ih =>
    obtain ⟨⟨body, after⟩, hbody, heq⟩ := map_eq_ok_iff.1 h
    cases heq
    rw [List.append_assoc, List.singleton_append, interpolationTail, ih hbody]
    rfl
  | case3 =>
    cases h
    rw [List.singleton_append, interpolationTail]
  | case4 before tail outer ih =>
    obtain ⟨⟨body, after⟩, hbody, heq⟩ := map_eq_ok_iff.1 h
    cases heq
    rw [List.append_assoc, List.singleton_append, interpolationTail, ih hbody]
    rfl
  | case6 before inner c tail hopen hclose hquote piece after hpiece ih =>
    obtain ⟨⟨body, final⟩, hbody, heq⟩ := map_eq_ok_iff.1 h
    cases heq
    have hread := quotedTail_append_of_quotedTail (Selector.ne_backslash_of_isQuote hquote) hpiece
      (body ++ other)
    rw [List.append_assoc, List.cons_append, interpolationTail_quoted hquote hread, ih hbody]
    rfl
  | case7 before inner c tail hopen hclose hquote ih =>
    obtain ⟨⟨body, after⟩, hbody, heq⟩ := map_eq_ok_iff.1 h
    cases heq
    rw [List.append_assoc, List.singleton_append, interpolationTail_cons hopen hclose hquote, ih hbody]
    rfl

/-! ## Where a lexeme ends -/

/-- The lexeme, read with `brackets` open, goes no further if `rest` comes next. -/
structure EndsBefore (dialect : Dialect) (brackets : Nat) (lexeme : Lexeme) (rest : List Char) :
    Prop where
  line : ∀ body, lexeme = .lineComment body →
    brackets = 0 ∧ dialect.hasLineComments ∧ '\n' ∉ body ∧ ∀ c, rest.head? = some c → c = '\n'
  slash : lexeme = .plain '/' → rest.head? ≠ some '*' ∧
    (rest.head? = some '/' → ¬(brackets = 0 ∧ dialect.hasLineComments))
  hash : lexeme = .plain '#' → rest.head? ≠ some '{'

section EndsBefore

variable {dialect : Dialect} {brackets : Nat} {rest : List Char}

/-- A lexeme that is none of the three ends wherever it ends. -/
theorem endsBefore_of_ne {lexeme : Lexeme} (hline : ∀ body, lexeme ≠ .lineComment body)
    (hslash : lexeme ≠ .plain '/') (hhash : lexeme ≠ .plain '#') (rest : List Char) :
    EndsBefore dialect brackets lexeme rest where
  line body heq := absurd heq (hline body)
  slash heq := absurd heq hslash
  hash heq := absurd heq hhash

theorem single_ne (brackets : Nat) {c : Char} (hslash : c ≠ '/') (hhash : c ≠ '#') :
    (∀ body, single brackets c ≠ .lineComment body) ∧ single brackets c ≠ .plain '/' ∧
      single brackets c ≠ .plain '#' := by
  have htext := text_single brackets c
  refine ⟨fun body heq => ?_, fun heq => ?_, fun heq => ?_⟩
  · rw [heq] at htext
    cases htext
  · rw [heq] at htext
    exact hslash (List.cons.inj htext).1.symm
  · rw [heq] at htext
    exact hhash (List.cons.inj htext).1.symm

theorem endsBefore_of_readSlash {more : List Char} {lexeme : Lexeme}
    (h : readSlash dialect brackets more = .ok (lexeme, rest)) :
    EndsBefore dialect brackets lexeme rest := by
  unfold readSlash at h
  split at h
  · split at h
    · cases h
      exact endsBefore_of_ne (by simp) (by simp) (by simp) _
    · cases h
  next inner =>
    split at h
    next hline =>
      cases h
      rw [Bool.and_eq_true, decide_eq_true_eq] at hline
      refine ⟨fun body heq => ?_, by simp, by simp⟩
      cases heq
      refine ⟨hline.1, hline.2, ?_, ?_⟩
      · intro hmem
        have hkept := List.all_eq_true.1 List.all_takeWhile _ hmem
        simp at hkept
      · intro c hc
        have hdropped := List.head?_dropWhile_not (fun c : Char => c ≠ '\n') inner
        rw [hc] at hdropped
        simpa using hdropped
    next hline =>
      cases h
      refine ⟨by simp, fun _ => ⟨by simp, fun _ hboth => hline ?_⟩, by simp⟩
      simp [hboth.1, hboth.2]
  next hstar hslash =>
    cases h
    refine ⟨by simp, fun _ => ⟨fun hhead => ?_, fun hhead => ?_⟩, by simp⟩
    · obtain ⟨tail, rfl⟩ := List.head?_eq_some_iff.1 hhead
      exact hstar tail rfl
    · obtain ⟨tail, rfl⟩ := List.head?_eq_some_iff.1 hhead
      exact absurd rfl (hslash tail)

/-- What was read ends before what is left. -/
theorem endsBefore_of_next {c : Char} {more : List Char} {lexeme : Lexeme}
    (h : next dialect brackets c more = .ok (lexeme, rest)) :
    EndsBefore dialect brackets lexeme rest := by
  unfold next at h
  split at h
  · exact endsBefore_of_readSlash h
  next hslash =>
    split at h
    · unfold readHash at h
      split at h
      · obtain ⟨⟨tail, after⟩, -, heq⟩ := map_eq_ok_iff.1 h
        cases heq
        exact endsBefore_of_ne (by simp) (by simp) (by simp) _
      next hbrace =>
        cases h
        refine ⟨by simp, by simp, fun _ hhead => ?_⟩
        obtain ⟨tail, rfl⟩ := List.head?_eq_some_iff.1 hhead
        exact hbrace tail rfl
    next hhash =>
      split at h
      · unfold readQuoted at h
        split at h
        · cases h
          exact endsBefore_of_ne (by simp) (by simp) (by simp) _
        · cases h
      · cases h
        obtain ⟨hline, hplain, hsign⟩ := single_ne brackets hslash hhash
        exact endsBefore_of_ne hline hplain hsign _

/-- A slash that ends here is read as one. -/
theorem readSlash_of_endsBefore (h : EndsBefore dialect brackets (.plain '/') rest) :
    readSlash dialect brackets rest = .ok (.plain '/', rest) := by
  obtain ⟨hstar, hslash⟩ := h.slash rfl
  unfold readSlash
  split
  · exact absurd rfl hstar
  · rw [if_neg]
    intro hline
    rw [Bool.and_eq_true, decide_eq_true_eq] at hline
    exact hslash rfl hline
  · rfl

/-- A comment that ends with its line is read whole. -/
theorem readSlash_of_line {body : List Char}
    (h : EndsBefore dialect brackets (.lineComment body) rest) :
    readSlash dialect brackets ('/' :: (body ++ rest)) = .ok (.lineComment body, rest) := by
  obtain ⟨hbrackets, hdialect, hbody, hrest⟩ := h.line body rfl
  have hkept : ∀ c ∈ body, decide (c ≠ '\n') = true := by
    intro c hc
    rw [decide_eq_true_eq]
    intro heq
    subst heq
    exact hbody hc
  have htake : (body ++ rest).takeWhile (· ≠ '\n') = body := by
    rw [List.takeWhile_append_of_pos hkept]
    cases rest with
    | nil => simp
    | cons c rest =>
      obtain rfl := hrest c rfl
      simp
  have hdrop : (body ++ rest).dropWhile (· ≠ '\n') = rest := by
    rw [List.dropWhile_append_of_pos hkept]
    cases rest with
    | nil => rfl
    | cons c rest =>
      obtain rfl := hrest c rfl
      rfl
  simp only [readSlash, hbrackets, hdialect, htake, hdrop]
  rfl

variable {other : Dialect} {rest' : List Char}

theorem readSlash_append {more : List Char} {lexeme : Lexeme}
    (h : readSlash dialect brackets more = .ok (lexeme, rest))
    (hends : EndsBefore other brackets lexeme rest') :
    ∃ more', lexeme.text ++ rest' = '/' :: more' ∧
      readSlash other brackets more' = .ok (lexeme, rest') := by
  unfold readSlash at h
  split at h
  · split at h
    next tail after htail =>
      cases h
      refine ⟨'*' :: (tail ++ rest'), rfl, ?_⟩
      have hread := Selector.commentTail_append_of_closesComment
        (Selector.closesComment_of_commentTail htail) rest'
      simp only [readSlash, hread]
    · cases h
  · split at h
    · cases h
      exact ⟨_, rfl, readSlash_of_line hends⟩
    · cases h
      exact ⟨rest', rfl, readSlash_of_endsBefore hends⟩
  · cases h
    exact ⟨rest', rfl, readSlash_of_endsBefore hends⟩

/-- A lexeme is read again before any other rest that it ends before, in any dialect. -/
theorem next_append {c : Char} {more : List Char} {lexeme : Lexeme}
    (h : next dialect brackets c more = .ok (lexeme, rest))
    (hends : EndsBefore other brackets lexeme rest') :
    ∃ more', lexeme.text ++ rest' = c :: more' ∧ next other brackets c more' = .ok (lexeme, rest') := by
  unfold next at h ⊢
  by_cases hslash : c = '/'
  · subst hslash
    simp only [if_true] at h ⊢
    exact readSlash_append h hends
  simp only [if_neg hslash] at h ⊢
  by_cases hhash : c = '#'
  · subst hhash
    simp only [if_true] at h ⊢
    unfold readHash at h
    split at h
    · obtain ⟨⟨tail, after⟩, htail, heq⟩ := map_eq_ok_iff.1 h
      cases heq
      refine ⟨'{' :: (tail ++ rest'), rfl, ?_⟩
      rw [readHash, interpolationTail_append_of_interpolationTail htail]
      rfl
    · cases h
      refine ⟨rest', rfl, ?_⟩
      unfold readHash
      split
      · exact absurd rfl (hends.hash rfl)
      · rfl
  simp only [if_neg hhash] at h ⊢
  by_cases hquote : isQuote c
  · rw [if_pos hquote] at h
    unfold readQuoted at h
    split at h
    next tail after htail =>
      cases h
      refine ⟨tail ++ rest', rfl, ?_⟩
      have hread := quotedTail_append_of_quotedTail (Selector.ne_backslash_of_isQuote hquote) htail rest'
      rw [if_pos hquote]
      simp only [readQuoted, hread]
    · cases h
  · rw [if_neg hquote] at h
    cases h
    refine ⟨rest', by rw [text_single]; rfl, ?_⟩
    rw [if_neg hquote]

/-- What cannot be read in one dialect cannot be read in the other. -/
theorem next_eq_error {c : Char} {more : List Char} {trouble : Trouble Fault}
    (h : next dialect brackets c more = .error trouble) :
    next other brackets c more = .error trouble := by
  unfold next at h ⊢
  by_cases hslash : c = '/'
  · subst hslash
    simp only [if_true] at h ⊢
    unfold readSlash at h
    split at h
    next inner =>
      split at h
      · cases h
      next hnone =>
        cases h
        simp only [readSlash, hnone]
    · split at h <;> cases h
    · cases h
  · simp only [if_neg hslash] at h ⊢
    exact h

end EndsBefore

/-! ## Cuts -/

/-- With `brackets` open, the text is cut into the pieces and `rest`, before which `after` brackets are
open. -/
inductive Cuts (dialect : Dialect) : Nat → List Char → List Lexeme → Nat → List Char → Prop where
  | done {brackets rest} : Cuts dialect brackets rest [] brackets rest
  | step {brackets c more lexeme middle pieces after rest}
      (first : next dialect brackets c more = .ok (lexeme, middle))
      (others : Cuts dialect (lexeme.bracketsAfter brackets) middle pieces after rest) :
      Cuts dialect brackets (c :: more) (lexeme :: pieces) after rest

theorem eq_nil_of_byteLength_written {pieces : List Lexeme} (h : byteLength (written Lexeme.text pieces) = 0) :
    pieces = [] := by
  cases pieces with
  | nil => rfl
  | cons lexeme pieces =>
    have hpos := byteLength_pos (text_ne_nil lexeme)
    rw [written_cons, byteLength_append] at h
    omega

namespace Cuts

variable {dialect : Dialect} {brackets middle after : Nat} {text between rest : List Char}
  {pieces others : List Lexeme}

theorem append (h : Cuts dialect brackets text pieces middle between)
    (hothers : Cuts dialect middle between others after rest) :
    Cuts dialect brackets text (pieces ++ others) after rest := by
  induction h with
  | done => exact hothers
  | step hfirst _ ih => exact .step hfirst (ih hothers)

theorem single {c : Char} {more : List Char} {lexeme : Lexeme}
    (h : next dialect brackets c more = .ok (lexeme, rest)) :
    Cuts dialect brackets (c :: more) [lexeme] (lexeme.bracketsAfter brackets) rest :=
  .step h .done

theorem eq_nil_or_exists {c : Char} {more : List Char}
    (h : Cuts dialect brackets (c :: more) pieces after rest) :
    pieces = [] ∧ c :: more = rest ∨ ∃ lexeme middle others,
      next dialect brackets c more = .ok (lexeme, middle) ∧
      Cuts dialect (lexeme.bracketsAfter brackets) middle others after rest ∧
      pieces = lexeme :: others := by
  cases h with
  | done => exact .inl ⟨rfl, rfl⟩
  | step hfirst hothers => exact .inr ⟨_, _, _, hfirst, hothers, rfl⟩

/-- Nothing is lost. -/
theorem written_append_rest (h : Cuts dialect brackets text pieces after rest) :
    written Lexeme.text pieces ++ rest = text := by
  induction h with
  | done => rfl
  | step hfirst _ ih =>
    rw [written_cons, List.append_assoc, ih]
    exact (splits_of_next hfirst).append_eq

theorem exists_of_append (h : Cuts dialect brackets text (pieces ++ others) after rest) :
    ∃ middle between, Cuts dialect brackets text pieces middle between ∧
      Cuts dialect middle between others after rest := by
  induction pieces generalizing brackets text with
  | nil => exact ⟨brackets, text, .done, h⟩
  | cons lexeme pieces ih =>
    cases h with
    | step hfirst hothers =>
      obtain ⟨middle, between, hfront, hback⟩ := ih hothers
      exact ⟨middle, between, .step hfirst hfront, hback⟩

/-- The lexer gives out the pieces and goes on with the rest. -/
theorem lexemesFrom_eq (h : Cuts dialect brackets text pieces after rest) :
    lexemesFrom dialect brackets text =
      ⟨pieces ++ (lexemesFrom dialect after rest).pieces, (lexemesFrom dialect after rest).trouble⟩ := by
  induction h with
  | done => rfl
  | step hfirst _ ih =>
    rw [lexemesFrom]
    split
    next herror =>
      rw [hfirst] at herror
      cases herror
    next hok =>
      rw [hfirst] at hok
      cases hok
      rw [ih]
      rfl

/-- A text that is cut to its end has just the pieces for lexemes. -/
theorem lexemes_eq (h : Cuts dialect 0 text pieces after []) : lexemes dialect text = ⟨pieces, none⟩ := by
  rw [lexemes, h.lexemesFrom_eq, lexemesFrom, List.append_nil]

end Cuts

/-- Where a lexer stops: at the end of the text, or before something that cannot be read. -/
def Stops (dialect : Dialect) (brackets : Nat) (rest : List Char) (trouble : Option (Trouble Fault)) :
    Prop :=
  rest = [] ∧ trouble = none ∨
    ∃ c more fault, rest = c :: more ∧ next dialect brackets c more = .error fault ∧ trouble = some fault

theorem lexemesFrom_of_stops {dialect : Dialect} {brackets : Nat} {rest : List Char}
    {trouble : Option (Trouble Fault)} (h : Stops dialect brackets rest trouble) :
    lexemesFrom dialect brackets rest = ⟨[], trouble⟩ := by
  rcases h with ⟨rfl, rfl⟩ | ⟨c, more, fault, rfl, hnext, rfl⟩
  · rw [lexemesFrom]
  · rw [lexemesFrom]
    split
    next herror =>
      rw [hnext] at herror
      cases herror
      rfl
    next hok =>
      rw [hnext] at hok
      cases hok

/-- The lexer cuts its text. -/
theorem exists_cuts (dialect : Dialect) (brackets : Nat) (text : List Char) :
    ∃ after rest, Cuts dialect brackets text (lexemesFrom dialect brackets text).pieces after rest ∧
      Stops dialect after rest (lexemesFrom dialect brackets text).trouble := by
  fun_induction lexemesFrom dialect brackets text with
  | case1 brackets => exact ⟨brackets, [], .done, .inl ⟨rfl, rfl⟩⟩
  | case2 brackets c more trouble hnext =>
    exact ⟨brackets, c :: more, .done, .inr ⟨c, more, trouble, rfl, hnext, rfl⟩⟩
  | case3 brackets c more lexeme middle hnext ih =>
    obtain ⟨after, rest, hcuts, hstops⟩ := ih
    exact ⟨after, rest, .step hnext hcuts, hstops⟩

/-! ## White space -/

theorem next_of_isBlank {dialect : Dialect} {c : Char} (h : isBlank c) (brackets : Nat)
    (rest : List Char) : next dialect brackets c rest = .ok (.blank c, rest) := by
  have hne : ∀ d, ¬isBlank d → c ≠ d := by
    intro d hd heq
    subst heq
    exact hd h
  have hquote : ¬isQuote c := by
    rw [isQuote_iff]
    exact not_or.2 ⟨hne '"' (by decide), hne '\'' (by decide)⟩
  have hsingle : single brackets c = .blank c := by
    unfold single
    split
    case h_8 => rw [if_pos h]
    all_goals exact absurd h (by decide)
  rw [next, if_neg (hne '/' (by decide)), if_neg (hne '#' (by decide)), if_neg hquote, hsingle]

theorem cuts_blanks {dialect : Dialect} {blanks : List Char} (h : ∀ c ∈ blanks, isBlank c)
    (brackets : Nat) (rest : List Char) :
    Cuts dialect brackets (blanks ++ rest) (blanks.map .blank) brackets rest := by
  induction blanks with
  | nil => exact .done
  | cons c blanks ih =>
    obtain ⟨hc, hblanks⟩ := List.forall_mem_cons.1 h
    exact .step (next_of_isBlank hc _ _) (ih hblanks)

/-! ## Masks -/

theorem byteLength_replicate_space (count : Nat) : byteLength (List.replicate count ' ') = count := by
  induction count with
  | zero => rfl
  | succ count ih =>
    rw [List.replicate_succ, byteLength_cons, ih, show (' ' : Char).utf8Size = 1 from rfl]
    omega

theorem masked_of_ne {lexeme : Lexeme} (h : ∀ body, lexeme ≠ .lineComment body) :
    lexeme.masked = lexeme.text := by
  cases lexeme with
  | lineComment body => exact absurd rfl (h body)
  | _ => rfl

/-- A mask takes as many bytes as what it stands for. -/
theorem byteLength_masked (lexeme : Lexeme) : byteLength lexeme.masked = byteLength lexeme.text := by
  cases lexeme with
  | lineComment body =>
    unfold Lexeme.masked
    dsimp only
    split
    next hlong =>
      simp only [byteLength_append, byteLength_cons, byteLength_nil, byteLength_replicate_space,
        show ('/' : Char).utf8Size = 1 from rfl, show ('*' : Char).utf8Size = 1 from rfl]
      omega
    · exact byteLength_replicate_space _
  | _ => rfl

/-- The text of lexemes as it stands in a heading. -/
def maskedText (pieces : List Lexeme) : List Char := pieces.flatMap Lexeme.masked

@[simp] theorem maskedText_nil : maskedText [] = [] := rfl

@[simp] theorem maskedText_cons (lexeme : Lexeme) (rest : List Lexeme) :
    maskedText (lexeme :: rest) = lexeme.masked ++ maskedText rest := rfl

@[simp] theorem maskedText_append (front back : List Lexeme) :
    maskedText (front ++ back) = maskedText front ++ maskedText back := List.flatMap_append

theorem maskedText_eq_written {pieces : List Lexeme} (h : ∀ lexeme ∈ pieces, lexeme.masked = lexeme.text) :
    maskedText pieces = written Lexeme.text pieces :=
  congrArg List.flatten (List.map_congr_left h)

theorem byteLength_maskedText (pieces : List Lexeme) :
    byteLength (maskedText pieces) = byteLength (written Lexeme.text pieces) := by
  induction pieces with
  | nil => rfl
  | cons lexeme rest ih =>
    rw [maskedText_cons, written_cons, byteLength_append, byteLength_append, byteLength_masked, ih]

end SelectorLint.Stylesheet
