import Mathlib.Data.List.Basic
import Mathlib.Data.List.TakeWhile
import SelectorLint.Proofs.Report.Json
import SelectorLint.Proofs.Selector.Leaves
import SelectorLint.Proofs.Text.Characters
import SelectorLint.Report.JsonLines

/-!
# Reports are read back

A report for programs can be cut at line feeds, since no line has one inside, and each line is read as a
JSON object with the keys and values of its record (`decode?_writtenRecord`). From these a program gets
all that was reported (`jsonLines_readBack`), whatever characters there are in paths, messages and
selectors.
-/

namespace SelectorLint.Report

open Text Json

/-! ## Texts -/

section Quoted

theorem toList_quoted (text : String) :
    (quoted text).toList = '"' :: (text.toList.flatMap escaped ++ ['"']) := by
  simp [quoted]

/-- A digit in base sixteen is no mark in a quoted text. -/
theorem hexDigit_ne : ∀ value < 16,
    hexDigit value ≠ '"' ∧ hexDigit value ≠ '\\' ∧ hexDigit value ≠ '\n' := by
  decide

/-- A character is written as itself, by a letter after a backslash, or by its number. -/
theorem escaped_cases (c : Char) :
    (32 ≤ c.toNat ∧ c ≠ '"' ∧ c ≠ '\\' ∧ escaped c = [c]) ∨
      (∃ letter, letter ≠ 'u' ∧ letter ≠ '\n' ∧ escaped? letter = some c ∧ escaped c = ['\\', letter]) ∨
      (c.toNat < 32 ∧
        escaped c = ['\\', 'u', '0', '0', hexDigit (c.toNat / 16), hexDigit (c.toNat % 16)]) := by
  unfold escaped
  split
  case h_8 _ hquote hback _ _ _ _ _ =>
    by_cases hsmall : c.toNat < 32
    · right
      right
      rw [if_pos hsmall]
      exact ⟨hsmall, rfl⟩
    · left
      rw [if_neg hsmall]
      exact ⟨by omega, hquote, hback, rfl⟩
  all_goals
    right
    left
    exact ⟨_, by decide, by decide, rfl, rfl⟩

theorem unit?_hexDigits : ∀ value < 32,
    unit? ['0', '0', hexDigit (value / 16), hexDigit (value % 16)] = some value := by
  decide

theorem unescape_escaped (c : Char) (rest : List Char) :
    unescape (escaped c ++ rest) = (unescape rest).map (c :: ·) := by
  rcases escaped_cases c with ⟨hlarge, -, hback, heq⟩ | ⟨letter, hu, -, hletter, heq⟩ | ⟨hsmall, heq⟩
  · rw [heq, List.singleton_append, unescape]
    · simp [hlarge, hback]
    · simp [hback]
    · simp [hback]
  · rw [heq]
    show unescape ('\\' :: letter :: rest) = _
    rw [unescape]
    · rw [hletter]
      rfl
    · simp [hu]
  · rw [heq]
    show unescape ('\\' :: 'u' :: '0' :: '0' :: _ :: _ :: rest) = _
    rw [unescape, unit?_hexDigits c.toNat hsmall]
    -- A number below 32 is that of a character, and not the first half of one.
    have hvalid : c.toNat.isValidChar := Or.inl (by omega)
    have hhigh : ¬(0xd800 ≤ c.toNat) := by omega
    simp [hvalid, hhigh, Char.ofNat_toNat]

theorem unescape_flatMap_escaped (text : List Char) : unescape (text.flatMap escaped) = some text := by
  induction text with
  | nil => rw [List.flatMap_nil, unescape]
  | cons c text ih => rw [List.flatMap_cons, unescape_escaped, ih, Option.map_some]

theorem quotedTail_cons {c : Char} (hquote : c ≠ '"') (hback : c ≠ '\\') (rest : List Char) :
    quotedTail true '"' (c :: rest) = (quotedTail true '"' rest).map (prepend [c]) := by
  rw [quotedTail]
  · simp [hquote]
  · simp [hback]

theorem quotedTail_backslash (c : Char) (rest : List Char) :
    quotedTail true '"' ('\\' :: c :: rest) = (quotedTail true '"' rest).map (prepend ['\\', c]) := by
  rw [quotedTail]

/-- What is written for a character does not end a quoted text. -/
theorem quotedTail_escaped (c : Char) (rest : List Char) :
    quotedTail true '"' (escaped c ++ rest) = (quotedTail true '"' rest).map (prepend (escaped c)) := by
  rcases escaped_cases c with ⟨-, hquote, hback, heq⟩ | ⟨letter, -, -, -, heq⟩ | ⟨hsmall, heq⟩
  · rw [heq, List.singleton_append, quotedTail_cons hquote hback]
  · rw [heq]
    exact quotedTail_backslash letter rest
  · obtain ⟨hquote₁, hback₁, -⟩ := hexDigit_ne (c.toNat / 16) (by omega)
    obtain ⟨hquote₂, hback₂, -⟩ := hexDigit_ne (c.toNat % 16) (by omega)
    rw [heq]
    show quotedTail true '"' ('\\' :: 'u' :: '0' :: '0' :: _ :: _ :: rest) = _
    rw [quotedTail_backslash, quotedTail_cons (by decide) (by decide),
      quotedTail_cons (by decide) (by decide), quotedTail_cons hquote₁ hback₁,
      quotedTail_cons hquote₂ hback₂]
    simp only [Option.map_map, Selector.prepend_comp_prepend, List.cons_append, List.nil_append]

theorem quotedTail_flatMap_escaped (text rest : List Char) :
    quotedTail true '"' (text.flatMap escaped ++ '"' :: rest) =
      some (text.flatMap escaped ++ ['"'], rest) := by
  induction text with
  | nil =>
    rw [List.flatMap_nil, List.nil_append, quotedTail]
    · rfl
    · simp
  | cons c text ih =>
    rw [List.flatMap_cons, List.append_assoc, quotedTail_escaped, ih, Option.map_some, prepend,
      List.append_assoc]

theorem tokens?_quoted (text : String) (rest : List Char) :
    tokens? ((quoted text).toList ++ rest) = (tokens? rest).map (.scalar (.text text) :: ·) := by
  rw [toList_quoted, List.cons_append, List.append_assoc, List.singleton_append]
  apply tokens?_quote
  rw [textTail?, quotedTail_flatMap_escaped]
  simp [unescape_flatMap_escaped]

end Quoted

/-! ## Numbers -/

section Numbers

theorem digitChar_ne_zero : ∀ digit < 10, digit ≠ 0 → Nat.digitChar digit ≠ '0' := by
  decide

/-- No number but zero starts with a zero. -/
theorem head?_toDigits_ne_zero {n : Nat} (hn : n ≠ 0) : (Nat.toDigits 10 n).head? ≠ some '0' := by
  induction n using Nat.strongRecOn with
  | ind n ih =>
    by_cases hsmall : n < 10
    · rw [Nat.toDigits_of_lt_base hsmall, List.head?_cons]
      simp [digitChar_ne_zero n hsmall hn]
    · have htail := ih (n / 10) (by omega) (by omega)
      rw [Nat.toDigits_of_base_le (by omega) (by omega),
        List.head?_append_of_ne_nil _ Nat.toDigits_ne_nil]
      exact htail

theorem digits?_of_forall {text : List Char} (hne : text ≠ []) (h : ∀ c ∈ text, c.isDigit) :
    digits? text = some (text, []) := by
  have htake : text.takeWhile Char.isDigit = text := List.takeWhile_eq_self_iff.2 h
  have hdrop : text.dropWhile Char.isDigit = [] := List.dropWhile_eq_nil_iff.2 h
  rw [digits?, htake, hdrop, if_neg (by simpa using hne)]

theorem whole?_toDigits (n : Nat) : whole? (Nat.toDigits 10 n) = some (Nat.toDigits 10 n, []) := by
  by_cases hn : n = 0
  · subst hn
    rfl
  · have hhead := head?_toDigits_ne_zero hn
    rw [whole?]
    · exact digits?_of_forall Nat.toDigits_ne_nil fun c hc => isDigit_of_mem_toDigits hc
    · intro rest heq
      rw [heq] at hhead
      exact hhead rfl

theorem unsigned?_toDigits (n : Nat) : unsigned? (Nat.toDigits 10 n) = some (n, 0) := by
  rw [unsigned?, whole?_toDigits]
  simp [fraction?, exponent?, Nat.ofDigitChars_ten_toDigits]

theorem bare?_toDigits (n : Nat) : bare? (Nat.toDigits 10 n) = some (.number n 0) := by
  have hword : ∀ c text, c.isDigit = false → Nat.toDigits 10 n ≠ c :: text := by
    intro c text hc heq
    have hdigit : c.isDigit := isDigit_of_mem_toDigits (heq ▸ List.mem_cons_self)
    rw [hc] at hdigit
    cases hdigit
  rw [bare?, if_neg (hword _ _ rfl), if_neg (hword _ _ rfl), if_neg (hword _ _ rfl), unsigned?_toDigits]
  · rfl
  · intro text heq
    exact hword _ _ rfl heq

theorem isBare_of_isDigit {c : Char} (h : c.isDigit) : isBare c := by
  simp [isBare, Char.isAlphanum, h]

end Numbers

/-! ## Records -/

/-- The value that a scalar is for a reader. -/
def Scalar.value : Scalar → Value
  | text value => .text value
  | number value => .number value 0
  | boolean value => .boolean value

/-- What a reader makes of a record. -/
def members (record : Record) : List (String × Value) :=
  record.map fun entry => (entry.1, entry.2.value)

/-- The tokens of entries, up to the brace at their end. -/
def entryTokens (rest : List Token) : Record → List Token
  | [] => .closeBrace :: rest
  | [(key, scalar)] => .scalar (.text key) :: .colon :: .scalar scalar.value :: .closeBrace :: rest
  | (key, scalar) :: others =>
    .scalar (.text key) :: .colon :: .scalar scalar.value :: .comma :: entryTokens rest others

section Records

theorem tokens?_written (scalar : Scalar) {stop : Char} (hstop : ¬isBare stop) (rest : List Char) :
    tokens? (scalar.written.toList ++ stop :: rest) =
      (tokens? (stop :: rest)).map (.scalar scalar.value :: ·) := by
  cases scalar with
  | text value => exact tokens?_quoted value _
  | number value =>
    rw [Scalar.written, toList_toString]
    apply tokens?_bare _ (bare?_toDigits value) hstop
    rw [List.all_eq_true]
    intro c hc
    exact isBare_of_isDigit (isDigit_of_mem_toDigits hc)
  | boolean value =>
    cases value with
    | true =>
      have hbare : ['t', 'r', 'u', 'e'].all isBare := by decide
      exact tokens?_bare hbare rfl hstop
    | false =>
      have hbare : ['f', 'a', 'l', 's', 'e'].all isBare := by decide
      exact tokens?_bare hbare rfl hstop

theorem tokens?_writtenEntry (entry : String × Scalar) {stop : Char} (hstop : ¬isBare stop)
    (rest : List Char) :
    tokens? ((writtenEntry entry).toList ++ stop :: rest) =
      (tokens? (stop :: rest)).map
        (.scalar (.text entry.1) :: .colon :: .scalar entry.2.value :: ·) := by
  have hcolon : (":" : String).toList = [':'] := rfl
  rw [writtenEntry, String.toList_append, String.toList_append, hcolon, List.append_assoc,
    List.append_assoc, tokens?_quoted, List.singleton_append,
    tokens?_mark (by decide) (by decide) rfl, tokens?_written _ hstop]
  simp only [Option.map_map, Function.comp_def]

theorem toList_writtenRecord (record : Record) :
    (writtenRecord record).toList =
      '{' :: (List.intercalate [','] (record.map fun entry => (writtenEntry entry).toList) ++ ['}']) := by
  have hopen : ("\x7b" : String).toList = ['{'] := rfl
  have hclose : ("\x7d" : String).toList = ['}'] := rfl
  have hcomma : ("," : String).toList = [','] := rfl
  rw [writtenRecord, String.toList_append, String.toList_append, hopen, hclose,
    String.toList_intercalate, hcomma, List.map_map, List.append_assoc, List.singleton_append]
  rfl

theorem tokens?_entries (record : Record) (rest : List Char) :
    tokens? (List.intercalate [','] (record.map fun entry => (writtenEntry entry).toList) ++ '}' :: rest) =
      (tokens? rest).map (entryTokens · record) := by
  have hclose : ∀ text, tokens? ('}' :: text) = (tokens? text).map (.closeBrace :: ·) :=
    tokens?_mark (by decide) (by decide) rfl
  have hcomma : ∀ text, tokens? (',' :: text) = (tokens? text).map (.comma :: ·) :=
    tokens?_mark (by decide) (by decide) rfl
  induction record using entryTokens.induct with
  | case1 => exact hclose rest
  | case2 key scalar =>
    rw [List.map_singleton, List.intercalate_singleton, tokens?_writtenEntry _ (by decide), hclose,
      Option.map_map]
    rfl
  | case3 key scalar others hothers ih =>
    -- Only before another entry there is a comma, which also ends a number or a word.
    obtain ⟨next, others, rfl⟩ := List.exists_cons_of_ne_nil hothers
    rw [List.map_cons] at ih
    rw [List.map_cons, List.map_cons, List.intercalate_cons_cons, List.append_assoc,
      List.append_assoc, List.singleton_append, tokens?_writtenEntry _ (by decide), hcomma, ih,
      Option.map_map, Option.map_map]
    rfl

theorem entryTokens_ne_closeBrace {record : Record} (hrecord : record ≠ []) (rest after : List Token) :
    entryTokens rest record ≠ .closeBrace :: after := by
  cases record using entryTokens.fun_cases with
  | case1 => exact absurd rfl hrecord
  | case2 key scalar => simp [entryTokens]
  | case3 key scalar others hothers => simp [entryTokens]

theorem members?_entryTokens (record : Record) (hrecord : record ≠ []) (rest : List Token) :
    ∃ h, members? (entryTokens rest record) = some (members record, ⟨rest, h⟩) := by
  induction record using entryTokens.induct with
  | case1 => exact absurd rfl hrecord
  | case2 key scalar => exact members?_last
  | case3 key scalar others hothers ih =>
    rw [entryTokens]
    · exact members?_comma (ih hothers)
    · exact hothers

/-- A record that was written is read as an object with its keys and values. -/
theorem decode?_writtenRecord (record : Record) :
    decode? (writtenRecord record).toList = some (.object (members record)) := by
  have htokens : tokens? (writtenRecord record).toList = some (.openBrace :: entryTokens [] record) := by
    rw [toList_writtenRecord, tokens?_mark (by decide) (by decide) rfl, tokens?_entries, tokens?]
    rfl
  rw [decode?, htokens]
  by_cases hrecord : record = []
  · subst hrecord
    simp [entryTokens, value?, members]
  · obtain ⟨hrest, hmembers⟩ := members?_entryTokens record hrecord []
    rw [Option.bind_eq_bind, Option.bind_some, value?]
    · simp [hmembers]
    · intro after
      exact entryTokens_ne_closeBrace hrecord [] after

end Records

/-! ## Lines -/

section Lines

theorem not_mem_escaped (c : Char) : '\n' ∉ escaped c := by
  rcases escaped_cases c with ⟨hlarge, -, -, heq⟩ | ⟨letter, -, hletter, -, heq⟩ | ⟨hsmall, heq⟩
  · rw [heq, List.mem_singleton]
    rintro rfl
    exact absurd hlarge (by decide)
  · simp [heq, hletter.symm]
  · obtain ⟨-, -, hfirst⟩ := hexDigit_ne (c.toNat / 16) (by omega)
    obtain ⟨-, -, hsecond⟩ := hexDigit_ne (c.toNat % 16) (by omega)
    simp [heq, hfirst.symm, hsecond.symm]

theorem not_mem_quoted (text : String) : '\n' ∉ (quoted text).toList := by
  simp [toList_quoted, not_mem_escaped]

theorem not_mem_written (scalar : Scalar) : '\n' ∉ scalar.written.toList := by
  cases scalar with
  | text value => exact not_mem_quoted value
  | number value =>
    rw [Scalar.written, toList_toString]
    intro hmem
    exact absurd (isDigit_of_mem_toDigits hmem) (by decide)
  | boolean value => cases value <;> decide

theorem not_mem_writtenEntry (entry : String × Scalar) : '\n' ∉ (writtenEntry entry).toList := by
  simp [writtenEntry, not_mem_quoted, not_mem_written]

theorem not_mem_writtenRecord (record : Record) : '\n' ∉ (writtenRecord record).toList := by
  have hentries : '\n' ∉ List.intercalate [','] (record.map fun entry => (writtenEntry entry).toList) := by
    induction record using entryTokens.induct with
    | case1 => exact List.not_mem_nil
    | case2 key scalar =>
      rw [List.map_singleton, List.intercalate_singleton]
      exact not_mem_writtenEntry _
    | case3 key scalar others hothers ih =>
      obtain ⟨next, others, rfl⟩ := List.exists_cons_of_ne_nil hothers
      rw [List.map_cons] at ih
      rw [List.map_cons, List.map_cons, List.intercalate_cons_cons]
      simp only [List.mem_append, not_or]
      exact ⟨⟨not_mem_writtenEntry _, by decide⟩, ih⟩
  simp [toList_writtenRecord, hentries]

theorem toList_writtenLines (records : List Record) :
    (writtenLines records).toList =
      records.flatMap fun record => (writtenRecord record).toList ++ ['\n'] := by
  rw [writtenLines, String.toList_join, List.flatMap_map]
  simp

/-- Each record takes one line, and all lines are ended. -/
theorem splitOn_writtenLines (records : List Record) :
    (writtenLines records).toList.splitOn '\n' =
      records.map (fun record => (writtenRecord record).toList) ++ [[]] := by
  rw [toList_writtenLines]
  induction records with
  | nil => exact List.splitOn_nil _
  | cons record records ih =>
    rw [List.flatMap_cons, List.append_assoc, List.singleton_append,
      List.splitOn_append_cons_self_of_not_mem (not_mem_writtenRecord record), ih]
    rfl

end Lines

/-! ## Entries -/

/-- The verdict of a report. -/
structure Status where
  passed : Bool
  filesChecked : Nat
  errors : Nat
  warnings : Nat
  parseErrors : Nat

/-- What a line of a report says. -/
inductive Entry where
  | violation (violation : Violation)
  | failure (file : Path) (position : Position) (message : String)
  | status (status : Status)

section Fields

variable (key : String) (object : List (String × Value))

/-- The value of the first member with a key. -/
def field? : Option Value := (object.find? fun member => member.1 = key).map Prod.snd

/-- The text that a key has. -/
def text? : Option String :=
  match field? key object with
  | some (.text value) => some value
  | _ => none

/-- The natural number that a key has. -/
def number? : Option Nat :=
  match field? key object with
  | some (.number (.ofNat value) exponent) => if exponent = 0 then some value else none
  | _ => none

/-- The truth value that a key has. -/
def boolean? : Option Bool :=
  match field? key object with
  | some (.boolean value) => some value
  | _ => none

/-- The line or column that a key has. -/
def word? : Option UInt32 := do
  let value ← number? key object
  if value < UInt32.size then some (UInt32.ofNat value) else none

end Fields

/-- The violation that an object is. -/
def violation? (object : List (String × Value)) : Option Violation := do
  let rule ← RuleId.ofString? (← text? "rule" object)
  let severity ← Severity.ofLabel? (← text? "severity" object)
  return ⟨rule, ⟨← text? "file" object⟩, ⟨← word? "line" object, ← word? "column" object⟩,
    ← number? "offset" object, severity, ← text? "message" object, ← text? "selector" object⟩

/-- The verdict that an object is. -/
def status? (object : List (String × Value)) : Option Status :=
  return ⟨← boolean? "passed" object, ← number? "files_checked" object, ← number? "errors" object,
    ← number? "warnings" object, ← number? "parse_errors" object⟩

/-- What an object says. -/
def Entry.ofObject? (object : List (String × Value)) : Option Entry := do
  let type ← text? "type" object
  if type = "violation" then (violation? object).map .violation
  else if type = "parse_error" then
    return .failure ⟨← text? "file" object⟩ ⟨← word? "line" object, ← word? "column" object⟩
      (← text? "message" object)
  else if type = "status" then (status? object).map .status
  else none

/-- What a line says. -/
def read? (line : List Char) : Option Entry :=
  match decode? line with
  | some (.object object) => Entry.ofObject? object
  | _ => none

section Entries

theorem ofString?_text (id : RuleId) : RuleId.ofString? id.text = some id := by
  rw [RuleId.ofString?, dif_pos id.valid]

theorem ofLabel?_label (severity : Severity) : Severity.ofLabel? severity.label = some severity := by
  cases severity <;> rfl

theorem read?_writtenRecord (record : Record) :
    read? (writtenRecord record).toList = Entry.ofObject? (members record) := by
  rw [read?, decode?_writtenRecord]

theorem ofObject?_violationRecord (violation : Violation) :
    Entry.ofObject? (members (violationRecord violation)) = some (.violation violation) := by
  simp [Entry.ofObject?, violation?, members, violationRecord, text?, number?, word?, field?, Scalar.value,
    ofString?_text, ofLabel?_label, UInt32.toNat_lt_size]

theorem ofObject?_failureRecord (failure : ParseFailure) :
    Entry.ofObject? (members (failureRecord failure)) =
      some (.failure failure.file failure.position failure.message) := by
  simp [Entry.ofObject?, members, failureRecord, text?, number?, word?, field?, Scalar.value,
    UInt32.toNat_lt_size]

theorem ofObject?_statusRecord (outcome : Outcome) :
    Entry.ofObject? (members (statusRecord outcome)) =
      some (.status ⟨outcome.passed, outcome.filesChecked, outcome.count .error, outcome.count .warning,
        outcome.failures.length⟩) := by
  simp [Entry.ofObject?, status?, members, statusRecord, text?, number?, boolean?, field?, Scalar.value]

end Entries

/-! ## Whole reports -/

/-- How bad the violation is that an entry tells of. -/
def Entry.severity? : Entry → Option Severity
  | violation found => some found.severity
  | _ => none

/-- The entry tells of a file that could not be made out. -/
def Entry.isFailure : Entry → Bool
  | failure _ _ _ => true
  | _ => false

/-- The verdict fits what the entries of a report say. -/
structure Status.Sums (status : Status) (entries : List Entry) : Prop where
  errors : status.errors = entries.countP fun entry => entry.severity? = some .error
  warnings : status.warnings = entries.countP fun entry => entry.severity? = some .warning
  parseErrors : status.parseErrors = entries.countP Entry.isFailure
  passed : status.passed = true ↔ status.errors = 0 ∧ status.parseErrors = 0

/-- What there is to say of an outcome: the violations, the files that could not be made out, and the
verdict. -/
def entriesOf (outcome : Outcome) (status : Status) : List Entry :=
  outcome.violations.map .violation
    ++ outcome.failures.map (fun failure => .failure failure.file failure.position failure.message)
    ++ [.status status]

/-- The verdict that is reported of an outcome. -/
def statusOf (outcome : Outcome) : Status :=
  ⟨outcome.passed, outcome.filesChecked, outcome.count .error, outcome.count .warning,
    outcome.failures.length⟩

section Whole

variable (outcome : Outcome)

theorem countP_severity?_entriesOf (status : Status) (severity : Severity) :
    (entriesOf outcome status).countP (fun entry => entry.severity? = some severity) =
      outcome.count severity := by
  simp [entriesOf, Outcome.count, List.countP_append, List.countP_map, Function.comp_def, Entry.severity?]

theorem countP_isFailure_entriesOf (status : Status) :
    (entriesOf outcome status).countP Entry.isFailure = outcome.failures.length := by
  simp [entriesOf, List.countP_append, List.countP_map, Function.comp_def, Entry.isFailure]

theorem sums_statusOf : (statusOf outcome).Sums (entriesOf outcome (statusOf outcome)) where
  errors := (countP_severity?_entriesOf outcome _ .error).symm
  warnings := (countP_severity?_entriesOf outcome _ .warning).symm
  parseErrors := (countP_isFailure_entriesOf outcome _).symm
  passed := by simp [statusOf, Outcome.passed]

theorem map_ofObject?_records :
    (records outcome).map (fun record => Entry.ofObject? (members record)) =
      (entriesOf outcome (statusOf outcome)).map some := by
  simp [records, entriesOf, statusOf, Function.comp_def, ofObject?_violationRecord, ofObject?_failureRecord,
    ofObject?_statusRecord]

theorem nodup_keys_of_mem_records {record : Record} (h : record ∈ records outcome) :
    ((members record).map Prod.fst).Nodup := by
  simp only [records, List.mem_append, List.mem_map, List.mem_singleton] at h
  rcases h with (⟨violation, -, rfl⟩ | ⟨failure, -, rfl⟩) | rfl
  · simp [members, violationRecord]
  · simp [members, failureRecord]
  · simp [members, statusRecord]

theorem filterMap_read?_of_map_read? {lines : List (List Char)} {entries : List Entry}
    (h : lines.map read? = entries.map some) : lines.filterMap read? = entries := by
  calc lines.filterMap read?
    _ = (lines.map read?).filterMap id := by rw [List.filterMap_map, Function.id_comp]
    _ = (entries.map some).filterMap id := by rw [h]
    _ = entries := by rw [List.filterMap_map, Function.id_comp, List.filterMap_some]

/-- A report falls into lines at its line feeds, one for each violation, one for each file that could not
be made out, and one for the verdict. A line is a JSON object with different keys, and says all that was
to be said: nothing in a path, a message or a selector gets lost or ends a line. The numbers in the verdict
are those of the lines before, and it passes if there is no error and no such file among them. -/
theorem jsonLines_readBack :
    ∃ lines status,
      (jsonLines outcome).toList.splitOn '\n' = lines ++ [[]] ∧
        lines.length = outcome.violations.length + outcome.failures.length + 1 ∧
        (∀ line ∈ lines, line ≠ [] ∧ '\n' ∉ line ∧
          ∃ object, decode? line = some (.object object) ∧ (object.map Prod.fst).Nodup) ∧
        lines.map read? = (entriesOf outcome status).map some ∧
        status.filesChecked = outcome.filesChecked ∧
        status.Sums (lines.filterMap read?) := by
  have hread : ((records outcome).map fun record => (writtenRecord record).toList).map read? =
      (entriesOf outcome (statusOf outcome)).map some := by
    rw [List.map_map, ← map_ofObject?_records]
    exact List.map_congr_left fun record _ => read?_writtenRecord record
  refine ⟨_, statusOf outcome, splitOn_writtenLines (records outcome), ?_, ?_, hread, rfl, ?_⟩
  · simp [records, Nat.add_assoc]
  · intro line hline
    obtain ⟨record, hrecord, rfl⟩ := List.mem_map.1 hline
    refine ⟨?_, not_mem_writtenRecord record, members record, decode?_writtenRecord record,
      nodup_keys_of_mem_records outcome hrecord⟩
    rw [toList_writtenRecord]
    exact List.cons_ne_nil _ _
  · rw [filterMap_read?_of_map_read? hread]
    exact sums_statusOf outcome

end Whole

end SelectorLint.Report
