import SelectorLint.Proofs.Stylesheet.Headings

/-!
# Line comments as other comments

A stylesheet with line comments is read as if each of them were a comment of the other sort, of the same
length. `maskLineComments` puts these in their place, and `parse_maskLineComments` says that the result,
read without line comments, has the same outcome.

Two runs are followed in lock step here, first of the lexer and then of the scan. In the first, the mask
of a line comment is read as one comment or as some blanks (`Lexeme.unlined`), and nothing else is read
differently because a mask starts with the slash of its comment or with a blank (`StartsAlike`). This holds
in every dialect that has no more comments than the first one (`Cuts.masked`). In the second, the states
differ only in the lexemes of the statement that has begun (`Scan.unlined`).
-/

namespace SelectorLint.Stylesheet

open Text

/-! ## The text with masks -/

/-- The lexemes that a scan takes, from `offset` on, before its first fault. -/
def Scan.taken (scan : Scan) (offset : Nat) : List Lexeme → List Lexeme
  | [] => []
  | lexeme :: rest =>
    match scan.take ⟨offset, lexeme⟩ with
    | .ok after => lexeme :: after.taken (offset + byteLength lexeme.text) rest
    | .error _ => []

/-- The lexemes that are gone past when a stylesheet is parsed. -/
def lexemesRead (dialect : Dialect) (source : List Char) : List Lexeme :=
  Scan.new.taken 0 (lexemes dialect source).pieces

/-- The stylesheet with the mask of each line comment that is gone past when it is parsed. -/
def maskLineComments (source : List Char) : List Char :=
  let read := lexemesRead .scss source
  maskedText read ++ source.drop (written Lexeme.text read).length

/-- What the scan takes, and where it stops. -/
theorem Scan.taken_spec (scan : Scan) (offset : Nat) (pieces : List Lexeme) :
    ∃ rest last, pieces = scan.taken offset pieces ++ rest ∧
      Runs Lexeme.text Scan.take scan offset (scan.taken offset pieces) last ∧
      (rest = [] ∨ ∃ lexeme more fault, rest = lexeme :: more ∧
        last.take ⟨offset + byteLength (written Lexeme.text (scan.taken offset pieces)), lexeme⟩ = .error fault) := by
  induction pieces generalizing scan offset with
  | nil => exact ⟨[], scan, rfl, .nil _ _, .inl rfl⟩
  | cons lexeme pieces ih =>
    cases htake : scan.take ⟨offset, lexeme⟩ with
    | error fault =>
      have htaken : scan.taken offset (lexeme :: pieces) = [] := by simp only [taken, htake]
      rw [htaken]
      exact ⟨lexeme :: pieces, scan, rfl, .nil _ _, .inr ⟨lexeme, pieces, fault, rfl, htake⟩⟩
    | ok after =>
      have htaken : scan.taken offset (lexeme :: pieces) =
          lexeme :: after.taken (offset + byteLength lexeme.text) pieces := by
        simp only [taken, htake]
      obtain ⟨rest, last, hpieces, hruns, hstop⟩ := ih after (offset + byteLength lexeme.text)
      rw [htaken]
      refine ⟨rest, last, by rw [List.cons_append, ← hpieces], .cons htake hruns, ?_⟩
      rw [written_cons, byteLength_append, ← Nat.add_assoc]
      exact hstop

/-! ## The lexer in lock step -/

/-- The lexemes that a lexeme is read as once it is masked. -/
def Lexeme.unlined : Lexeme → List Lexeme
  | lineComment body =>
    let length := byteLength (lineComment body).text
    if 4 ≤ length then [.comment (List.replicate (length - 4) ' ' ++ ['*', '/'])]
    else List.replicate length (.blank ' ')
  | lexeme => [lexeme]

/-- One text starts like the other, or with a space. -/
def StartsAlike (text masked : List Char) : Prop :=
  masked.head? = text.head? ∨ masked.head? = some ' '

theorem two_le_byteLength_lineComment (body : List Char) :
    2 ≤ byteLength (Lexeme.lineComment body).text := by
  simp only [Lexeme.text, byteLength_cons, show ('/' : Char).utf8Size = 1 from rfl]
  omega

theorem unlined_of_ne {lexeme : Lexeme} (h : ∀ body, lexeme ≠ .lineComment body) :
    lexeme.unlined = [lexeme] := by
  cases lexeme with
  | lineComment body => exact absurd rfl (h body)
  | _ => rfl

theorem written_spaces (count : Nat) :
    written Lexeme.text (List.replicate count (.blank ' ')) = List.replicate count ' ' := by
  induction count with
  | zero => rfl
  | succ count ih =>
    rw [List.replicate_succ, written_cons, ih]
    rfl

theorem cuts_spaces {dialect : Dialect} (count brackets : Nat) (rest : List Char) :
    Cuts dialect brackets (List.replicate count ' ' ++ rest) (List.replicate count (.blank ' ')) brackets rest := by
  have hblank : ∀ c ∈ List.replicate count ' ', isBlank c := by
    intro c hc
    rw [List.eq_of_mem_replicate hc]
    decide
  have hcuts : Cuts dialect brackets _ _ brackets rest := cuts_blanks hblank brackets rest
  rwa [List.map_replicate] at hcuts

theorem written_unlined (lexeme : Lexeme) : written Lexeme.text lexeme.unlined = lexeme.masked := by
  cases lexeme with
  | lineComment body =>
    unfold Lexeme.unlined Lexeme.masked
    dsimp only
    split
    · simp [Lexeme.text]
    · exact written_spaces _
  | _ => exact List.append_nil _

theorem maskedText_unlined (lexeme : Lexeme) : maskedText lexeme.unlined = lexeme.masked := by
  rw [← written_unlined]
  cases lexeme with
  | lineComment body =>
    unfold Lexeme.unlined
    dsimp only
    split
    · rfl
    · generalize byteLength (Lexeme.lineComment body).text = length
      induction length with
      | zero => rfl
      | succ length ih => rw [List.replicate_succ, maskedText_cons, written_cons, ih]; rfl
  | _ => exact congrArg (· ++ []) (masked_of_ne (by simp))

theorem commentTail_spaces (count : Nat) (rest : List Char) :
    commentTail (List.replicate count ' ' ++ ['*', '/'] ++ rest) =
      some (List.replicate count ' ' ++ ['*', '/'], rest) := by
  induction count with
  | zero => rfl
  | succ count ih =>
    rw [List.replicate_succ, List.cons_append, List.cons_append, commentTail, ih]
    · rfl
    · intro after heq
      cases heq

theorem next_of_commentTail {text tail rest : List Char} (h : commentTail text = some (tail, rest))
    (dialect : Dialect) (brackets : Nat) :
    next dialect brackets '/' ('*' :: text) = .ok (.comment tail, rest) := by
  simp only [next, if_true, readSlash, h]

section Masked

variable {dialect other : Dialect} {brackets after : Nat} {text rest : List Char}

/-- The mask of a line comment is read as it should be. -/
theorem cuts_mask (body : List Char) (brackets : Nat) (rest : List Char) :
    Cuts dialect brackets ((Lexeme.lineComment body).masked ++ rest) (Lexeme.lineComment body).unlined
      brackets rest := by
  unfold Lexeme.unlined Lexeme.masked
  dsimp only
  split
  · exact .single (next_of_commentTail (commentTail_spaces _ rest) dialect brackets)
  · exact cuts_spaces _ brackets rest

theorem startsAlike_mask (more body rest : List Char) :
    StartsAlike ('/' :: more) ((Lexeme.lineComment body).masked ++ rest) := by
  have hlength := two_le_byteLength_lineComment body
  unfold Lexeme.masked
  dsimp only
  split
  · exact .inl rfl
  · obtain ⟨length, hsucc⟩ := Nat.exists_eq_add_of_le hlength
    rw [hsucc, Nat.add_comm, List.replicate_succ]
    exact .inr rfl

/-- A lexeme that ends before a text ends before one that starts alike, if there `//` means no more. -/
theorem endsBefore_of_startsAlike {lexeme : Lexeme} {masked : List Char}
    (hlines : other.hasLineComments → dialect.hasLineComments) (hline : ∀ body, lexeme ≠ .lineComment body)
    (h : EndsBefore dialect brackets lexeme text) (halike : StartsAlike text masked) :
    EndsBefore other brackets lexeme masked := by
  refine ⟨fun body heq => absurd heq (hline body), fun heq => ?_, fun heq => ?_⟩
  · obtain ⟨hstar, hslash⟩ := h.slash heq
    rcases halike with hsame | hblank
    · rw [hsame]
      exact ⟨hstar, fun hhead hboth => hslash hhead ⟨hboth.1, hlines hboth.2⟩⟩
    · simp [hblank]
  · have hbrace := h.hash heq
    rcases halike with hsame | hblank
    · rwa [hsame]
    · simp [hblank]

/-- The masked text is cut in the same places, also before another rest that starts alike. -/
theorem Cuts.masked {pieces : List Lexeme} (hlines : other.hasLineComments → dialect.hasLineComments)
    (h : Cuts dialect brackets text pieces after rest) {rest' : List Char} (hrest : StartsAlike rest rest') :
    Cuts other brackets (maskedText pieces ++ rest') (pieces.flatMap Lexeme.unlined) after rest' ∧
      StartsAlike text (maskedText pieces ++ rest') := by
  induction h with
  | done => exact ⟨.done, hrest⟩
  | @step brackets c more lexeme middle pieces after rest hfirst _ ih =>
    obtain ⟨hcuts, halike⟩ := ih hrest
    rw [maskedText_cons, List.append_assoc, List.flatMap_cons]
    by_cases hline : ∃ body, lexeme = .lineComment body
    · obtain ⟨body, rfl⟩ := hline
      obtain ⟨rfl, -⟩ := List.cons.inj (splits_of_next hfirst).append_eq
      exact ⟨(cuts_mask body brackets _).append hcuts, startsAlike_mask _ body _⟩
    · have hne : ∀ body, lexeme ≠ .lineComment body := fun body heq => hline ⟨body, heq⟩
      have hends := endsBefore_of_startsAlike hlines hne (endsBefore_of_next hfirst) halike
      obtain ⟨more', htext, hnext⟩ := next_append hfirst hends
      rw [unlined_of_ne hne, masked_of_ne hne, htext]
      exact ⟨.step hnext hcuts, .inl rfl⟩

/-- The masked text is cut in the same places without line comments. -/
theorem Cuts.unlined {pieces : List Lexeme} (h : Cuts .scss brackets text pieces after rest) :
    Cuts .css brackets (maskedText pieces ++ rest) (pieces.flatMap Lexeme.unlined) after rest ∧
      StartsAlike text (maskedText pieces ++ rest) :=
  h.masked (fun _ => rfl) (.inl rfl)

end Masked

/-! ## The scan in lock step -/

/-- The scan after the masked text: the lexemes of its statement are read from masks. -/
def Scan.unlined (scan : Scan) : Scan :=
  { scan with
    statement := scan.statement.map fun statement =>
      { statement with piece := statement.piece.flatMap fun lexeme => lexeme.unlined.reverse } }

theorem heading_unlined (pieces : List Lexeme) :
    Scan.heading (pieces.flatMap fun lexeme => lexeme.unlined.reverse) = Scan.heading pieces := by
  have hmasked : ((pieces.flatMap fun lexeme => lexeme.unlined.reverse).reverse).flatMap Lexeme.masked =
      pieces.reverse.flatMap Lexeme.masked := by
    induction pieces with
    | nil => rfl
    | cons lexeme pieces ih =>
      have hone : lexeme.unlined.flatMap Lexeme.masked = lexeme.masked := maskedText_unlined lexeme
      rw [List.flatMap_cons, List.reverse_append, List.flatMap_append, ih, List.reverse_reverse,
        hone, List.reverse_cons, List.flatMap_append, List.flatMap_singleton]
  rw [Scan.heading, hmasked, Scan.heading]

theorem unlined_lengthened (scan : Scan) (lexeme : Lexeme) :
    (scan.lengthened [lexeme]).unlined = scan.unlined.lengthened lexeme.unlined := by
  obtain ⟨statement, blocks, rules⟩ := scan
  cases statement with
  | none => rfl
  | some statement => simp [Scan.unlined, Scan.lengthened]

theorem not_isSignificant_unlined (body : List Char) :
    ∀ lexeme ∈ (Lexeme.lineComment body).unlined, ¬lexeme.isSignificant := by
  intro lexeme hmem
  unfold Lexeme.unlined at hmem
  dsimp only at hmem
  split at hmem
  · rw [List.mem_singleton.1 hmem]
    exact Bool.false_ne_true
  · rw [List.eq_of_mem_replicate hmem]
    exact Bool.false_ne_true

/-- A lexeme that is no line comment. -/
theorem take_unlined {lexeme : Lexeme} (h : ∀ body, lexeme ≠ .lineComment body) (scan : Scan)
    (offset : Nat) :
    scan.unlined.take ⟨offset, lexeme⟩ = (scan.take ⟨offset, lexeme⟩).map Scan.unlined := by
  obtain ⟨statement, blocks, rules⟩ := scan
  cases lexeme with
  | lineComment body => exact absurd rfl (h body)
  | openBrace =>
    cases statement with
    | none => rfl
    | some statement =>
      simp only [Scan.take, Scan.openBlock, Scan.unlined, Option.map_some, heading_unlined]
      rfl
  | closeBrace => cases blocks <;> rfl
  | semicolon => rfl
  | _ => cases statement <;> rfl

/-- One lexeme, and what it is read as once it is masked. -/
theorem foldlM_unlined_lexeme (scan : Scan) (offset : Nat) (lexeme : Lexeme) :
    (placed Lexeme.text offset lexeme.unlined).foldlM Scan.take scan.unlined =
      (scan.take ⟨offset, lexeme⟩).map Scan.unlined := by
  by_cases hline : ∃ body, lexeme = .lineComment body
  · obtain ⟨body, rfl⟩ := hline
    have hnot := not_isSignificant_unlined body
    have hself : ¬(Lexeme.lineComment body).isSignificant := Bool.false_ne_true
    have htake : scan.take ⟨offset, .lineComment body⟩ = .ok (scan.lengthened [.lineComment body]) := by
      rw [Scan.take_of_isInner rfl, Scan.extend_eq_lengthened (.inr hself)]
    rw [htake, Except.map, unlined_lengthened]
    exact Scan.runs_lengthened (fun lexeme hmem => isInner_of_not_isSignificant (hnot lexeme hmem))
      (.inr hnot) offset
  · have hne : ∀ body, lexeme ≠ .lineComment body := fun body heq => hline ⟨body, heq⟩
    have hstep := take_unlined hne scan offset
    rw [unlined_of_ne hne, placed, placed, List.foldlM_cons, hstep]
    cases scan.take ⟨offset, lexeme⟩ <;> rfl

/-- All lexemes: the second run gives the image of what the first one gives, or the same fault. -/
theorem foldlM_unlined (scan : Scan) (offset : Nat) (pieces : List Lexeme) :
    (placed Lexeme.text offset (pieces.flatMap Lexeme.unlined)).foldlM Scan.take scan.unlined =
      ((placed Lexeme.text offset pieces).foldlM Scan.take scan).map Scan.unlined := by
  induction pieces generalizing scan offset with
  | nil => rfl
  | cons lexeme pieces ih =>
    have hlength : byteLength (written Lexeme.text lexeme.unlined) = byteLength lexeme.text := by
      rw [written_unlined, byteLength_masked]
    rw [List.flatMap_cons, placed_append, List.foldlM_append, foldlM_unlined_lexeme, hlength, placed,
      List.foldlM_cons]
    cases scan.take ⟨offset, lexeme⟩ with
    | error fault => rfl
    | ok after => exact ih after _

theorem written_unlined_all (pieces : List Lexeme) :
    written Lexeme.text (pieces.flatMap Lexeme.unlined) = maskedText pieces := by
  induction pieces with
  | nil => rfl
  | cons lexeme pieces ih =>
    rw [List.flatMap_cons, written_append, ih, written_unlined, maskedText_cons]

/-! ## Both together -/

/-- A lexeme at fault is a brace, and is read in any dialect. -/
theorem next_of_fault {dialect other : Dialect} {brackets offset : Nat} {scan : Scan} {c : Char}
    {more rest : List Char} {lexeme : Lexeme} {fault : Located Fault}
    (hnext : next dialect brackets c more = .ok (lexeme, rest))
    (h : scan.take ⟨offset, lexeme⟩ = .error fault) :
    next other brackets c more = .ok (lexeme, rest) := by
  have hends : EndsBefore other brackets lexeme rest := by
    cases lexeme with
    | openBrace | closeBrace => exact endsBefore_of_ne (by simp) (by simp) (by simp) rest
    | _ => cases h
  obtain ⟨more', htext, hagain⟩ := next_append hnext hends
  rw [(splits_of_next hnext).append_eq] at htext
  cases htext
  exact hagain

theorem stops_of_stops {dialect other : Dialect} {brackets : Nat} {rest : List Char}
    {trouble : Option (Trouble Fault)} (h : Stops dialect brackets rest trouble) :
    Stops other brackets rest trouble := by
  rcases h with hend | ⟨c, more, fault, hrest, hnext, htrouble⟩
  · exact .inl hend
  · exact .inr ⟨c, more, fault, hrest, next_eq_error hnext, htrouble⟩

/-- Lexemes read from masks give the same rules. -/
theorem collect_unlined (pieces : List Lexeme) (trouble : Option (Trouble Fault)) :
    collect ⟨pieces.flatMap Lexeme.unlined, trouble⟩ = collect ⟨pieces, trouble⟩ := by
  have hfold := foldlM_unlined .new 0 pieces
  have hlength : byteLength (written Lexeme.text (pieces.flatMap Lexeme.unlined)) =
      byteLength (written Lexeme.text pieces) := by
    have hwritten := congrArg byteLength (written_unlined_all pieces)
    rwa [byteLength_maskedText] at hwritten
  have hnew : Scan.new.unlined = Scan.new := rfl
  rw [hnew] at hfold
  unfold collect
  rw [hfold]
  cases (placed Lexeme.text 0 pieces).foldlM Scan.take Scan.new with
  | error fault => rfl
  | ok scan =>
    cases trouble with
    | none => rfl
    | some trouble => simp only [Except.map, bind, Except.bind, hlength]

/-- What comes after a fault does not count. -/
theorem collect_append_of_fault {front : List Lexeme} {fault : Located Fault}
    (h : (placed Lexeme.text 0 front).foldlM Scan.take Scan.new = .error fault) (more : List Lexeme)
    (trouble : Option (Trouble Fault)) : collect ⟨front ++ more, trouble⟩ = .error fault := by
  unfold collect
  rw [placed_append, List.foldlM_append, h]
  rfl

theorem foldlM_of_fault {front : List Lexeme} {lexeme : Lexeme} {scan : Scan} {fault : Located Fault}
    (hruns : Runs Lexeme.text Scan.take .new 0 front scan)
    (h : scan.take ⟨0 + byteLength (written Lexeme.text front), lexeme⟩ = .error fault) :
    (placed Lexeme.text 0 (front ++ [lexeme])).foldlM Scan.take Scan.new = .error fault := by
  unfold Runs at hruns
  rw [placed_append, List.foldlM_append, hruns, placed, placed]
  simp only [bind, Except.bind, List.foldlM_cons, h]

/-- The masked lexemes are those that could be taken, up to one at fault. -/
theorem parse_of_fault {source between : List Char} {read more : List Lexeme} {lexeme : Lexeme}
    {brackets after : Nat} {rest : List Char} {scan : Scan} {fault : Located Fault}
    (hfront : Cuts .scss 0 source read brackets between)
    (hback : Cuts .scss brackets between (lexeme :: more) after rest)
    (hruns : Runs Lexeme.text Scan.take .new 0 read scan)
    (h : scan.take ⟨0 + byteLength (written Lexeme.text read), lexeme⟩ = .error fault) :
    collect (lexemes .css (maskedText read ++ between)) = .error fault := by
  have hfold := foldlM_of_fault hruns h
  cases hback with
  | step hnext hothers =>
    have hcss : Cuts .css brackets _ [lexeme] _ _ := .single (next_of_fault hnext h)
    have hunlined : lexeme.unlined = [lexeme] := by
      apply unlined_of_ne
      intro body heq
      subst heq
      cases h
    have hmasked : (placed Lexeme.text 0 ((read ++ [lexeme]).flatMap Lexeme.unlined)).foldlM
        Scan.take Scan.new = .error fault := by
      have hboth := foldlM_unlined .new 0 (read ++ [lexeme])
      rw [hfold] at hboth
      exact hboth
    rw [List.flatMap_append, List.flatMap_singleton, hunlined] at hmasked
    rw [lexemes, (hfront.unlined.1.append hcss).lexemesFrom_eq]
    exact collect_append_of_fault hmasked _ _

/-- A stylesheet with masks for its line comments, read without line comments, has the same rules as
before or the same fault in the same place. It is as long as before. -/
theorem parse_maskLineComments (source : String) :
    parse .css (String.ofList (maskLineComments source.toList)) = parse .scss source ∧
      byteLength (maskLineComments source.toList) = byteLength source.toList := by
  obtain ⟨after, tail, hcuts, hstops⟩ := exists_cuts .scss 0 source.toList
  obtain ⟨rest, last, hpieces, hruns, hstop⟩ :=
    Scan.new.taken_spec 0 (lexemesFrom .scss 0 source.toList).pieces
  rw [hpieces] at hcuts
  obtain ⟨middle, between, hfront, hback⟩ := hcuts.exists_of_append
  generalize hread : Scan.new.taken 0 (lexemesFrom .scss 0 source.toList).pieces = read at *
  have hwritten := hfront.written_append_rest
  have hmask : maskLineComments source.toList = maskedText read ++ between := by
    have hdrop : source.toList.drop (written Lexeme.text read).length = between := by
      rw [← hwritten, List.drop_left]
    rw [maskLineComments, lexemesRead, lexemes, hread, hdrop]
  have hscss : lexemes .scss source.toList =
      ⟨read ++ rest, (lexemesFrom .scss 0 source.toList).trouble⟩ := by rw [← hpieces]; rfl
  constructor
  · rw [parse, String.toList_ofList, hmask, parse, hscss]
    rcases hstop with rfl | ⟨lexeme, more, fault, rfl, hfault⟩
    · cases hback
      rw [lexemes, hfront.unlined.1.lexemesFrom_eq, lexemesFrom_of_stops (stops_of_stops hstops),
        List.append_nil, List.append_nil, collect_unlined]
    · have hfold := foldlM_of_fault hruns hfault
      have hassoc : read ++ lexeme :: more = read ++ [lexeme] ++ more := by simp
      rw [parse_of_fault hfront hback hruns hfault, hassoc, collect_append_of_fault hfold]
  · have hlength := congrArg byteLength hwritten
    rw [byteLength_append] at hlength
    rw [hmask, byteLength_append, byteLength_maskedText, hlength]

end SelectorLint.Stylesheet
