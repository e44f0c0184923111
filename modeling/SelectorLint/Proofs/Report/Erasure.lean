import SelectorLint.Proofs.Text.Characters
import SelectorLint.Report.Human

/-!
# Color does not change a report

A report can be written with escape sequences, which make a terminal show it in color. `withoutEscapes` takes all
such sequences out of a text. What it leaves of a report in color is the report without color
(`withoutEscapes_human`), provided that nothing that is quoted in the report has escape characters of its own. It
does not matter what else is quoted, such as brackets and digits that look like the rest of a sequence.
-/

namespace SelectorLint.Report

open Text

/-- The text has no escape character. -/
def HasNoEscape (text : String) : Prop := '\x1b' ∉ text.toList

instance (text : String) : Decidable (HasNoEscape text) := inferInstanceAs (Decidable ('\x1b' ∉ text.toList))

/-- What follows the escape sequence that a text starts with: an escape character, a bracket, digits and an `m`. -/
def afterEscape? : List Char → Option (List Char)
  | '\x1b' :: '[' :: rest =>
    match rest.takeWhile Char.isDigit, rest.dropWhile Char.isDigit with
    | _ :: _, 'm' :: after => some after
    | _, _ => none
  | _ => none

theorem length_afterEscape? {text after : List Char} (h : afterEscape? text = some after) :
    after.length < text.length := by
  unfold afterEscape? at h
  split at h
  next rest =>
    split at h
    next hdrop =>
      cases h
      have hsuffix := (List.dropWhile_suffix (l := rest) Char.isDigit).length_le
      rw [hdrop] at hsuffix
      simp only [List.length_cons] at hsuffix ⊢
      omega
    · cases h
  · cases h

/-- The text without its escape sequences. -/
def withoutEscapes (text : List Char) : List Char :=
  match _h : afterEscape? text with
  | some after => withoutEscapes after
  | none =>
    match text with
    | [] => []
    | c :: rest => c :: withoutEscapes rest
termination_by text.length
decreasing_by
  · exact length_afterEscape? ‹_›
  · simp

theorem withoutEscapes_of_afterEscape? {text after : List Char} (h : afterEscape? text = some after) :
    withoutEscapes text = withoutEscapes after := by
  rw [withoutEscapes.eq_def]
  split
  next hsome =>
    rw [h] at hsome
    cases hsome
    rfl
  next hnone =>
    rw [h] at hnone
    cases hnone

theorem withoutEscapes_cons {c : Char} (hc : c ≠ '\x1b') (rest : List Char) :
    withoutEscapes (c :: rest) = c :: withoutEscapes rest := by
  have hnone : afterEscape? (c :: rest) = none := by
    unfold afterEscape?
    split
    next heq =>
      cases heq
      exact absurd rfl hc
    · rfl
  rw [withoutEscapes.eq_def]
  split
  next hsome =>
    rw [hnone] at hsome
    cases hsome
  · rfl

/-- A text without escape characters stays as it is, whatever it has that comes in sequences. -/
theorem withoutEscapes_append {text : List Char} (h : '\x1b' ∉ text) (rest : List Char) :
    withoutEscapes (text ++ rest) = text ++ withoutEscapes rest := by
  induction text with
  | nil => rfl
  | cons c text ih =>
    rw [List.mem_cons, not_or] at h
    rw [List.cons_append, withoutEscapes_cons (Ne.symm h.1), ih h.2, List.cons_append]

theorem afterEscape?_escape (number : Nat) (rest : List Char) :
    afterEscape? ((escape number).toList ++ rest) = some rest := by
  have htext : (escape number).toList ++ rest = '\x1b' :: '[' :: (Nat.toDigits 10 number ++ 'm' :: rest) := by
    simp [escape]
  have hdigits : ∀ c ∈ Nat.toDigits 10 number, c.isDigit := fun _ => isDigit_of_mem_toDigits
  obtain ⟨first, others, hfirst⟩ := List.exists_cons_of_ne_nil (Nat.toDigits_ne_nil (b := 10) (n := number))
  have htake : (Nat.toDigits 10 number ++ 'm' :: rest).takeWhile Char.isDigit = first :: others := by
    rw [List.takeWhile_append_of_pos hdigits, hfirst]
    exact List.append_nil _
  have hdrop : (Nat.toDigits 10 number ++ 'm' :: rest).dropWhile Char.isDigit = 'm' :: rest := by
    rw [List.dropWhile_append_of_pos hdigits]
    rfl
  rw [htext, afterEscape?, htake, hdrop]
  rfl

theorem withoutEscapes_escapes (numbers : List Nat) (rest : List Char) :
    withoutEscapes ((String.join (numbers.map escape)).toList ++ rest) = withoutEscapes rest := by
  induction numbers with
  | nil => rfl
  | cons number numbers ih =>
    rw [List.map_cons, String.join_cons, String.toList_append, List.append_assoc,
      withoutEscapes_of_afterEscape? (afterEscape?_escape number _), ih]

/-- Switching styles on and off leaves nothing behind. -/
theorem withoutEscapes_ansi {span : Span} (h : HasNoEscape span.text) (rest : List Char) :
    withoutEscapes (span.ansi.toList ++ rest) = span.text.toList ++ withoutEscapes rest := by
  unfold Span.ansi
  cases span.style with
  | none => exact withoutEscapes_append h rest
  | some style =>
    rw [String.toList_append, String.toList_append, List.append_assoc, List.append_assoc, Style.switchOn,
      withoutEscapes_escapes, withoutEscapes_append h, withoutEscapes_of_afterEscape? (afterEscape?_escape 0 rest)]

namespace Styled

/-- No piece of the text has an escape character. -/
def IsClean (styled : Styled) : Prop := ∀ span ∈ styled, HasNoEscape span.text

theorem withoutEscapes_toAnsi {styled : Styled} (h : styled.IsClean) :
    withoutEscapes styled.toAnsi.toList = styled.toPlain.toList := by
  induction styled with
  | nil => simp [toAnsi, toPlain, withoutEscapes, afterEscape?]
  | cons span styled ih =>
    obtain ⟨hspan, hrest⟩ := List.forall_mem_cons.1 h
    unfold toAnsi toPlain at ih ⊢
    rw [List.map_cons, List.map_cons, String.join_cons, String.join_cons, String.toList_append,
      String.toList_append, withoutEscapes_ansi hspan, ih hrest]

theorem isClean_append_iff {first second : Styled} :
    IsClean (first ++ second) ↔ IsClean first ∧ IsClean second :=
  List.forall_mem_append

theorem isClean_singleton_iff {span : Span} : IsClean [span] ↔ HasNoEscape span.text :=
  List.forall_mem_singleton

end Styled

/-! ## The pieces of a report -/

theorem hasNoEscape_append_iff {first second : String} :
    HasNoEscape (first ++ second) ↔ HasNoEscape first ∧ HasNoEscape second := by
  unfold HasNoEscape
  rw [String.toList_append, List.mem_append, not_or]

theorem hasNoEscape_toString (number : Nat) : HasNoEscape (toString number) := by
  intro hmem
  rw [toList_toString] at hmem
  exact absurd (isDigit_of_mem_toDigits hmem) (by decide)

/-- The characters of rule ids are letters, digits and a few signs. -/
theorem hasNoEscape_ruleId (id : RuleId) : HasNoEscape id.text := by
  intro hmem
  have hvalid := id.valid
  simp only [isRuleId, Bool.and_eq_true] at hvalid
  have hcharacter := List.all_eq_true.1 hvalid.2 '\x1b' hmem
  rw [isRuleIdCharacter, isAlphanumeric_of_lt (by decide)] at hcharacter
  exact absurd hcharacter (by decide)

section Pieces

open Styled

theorem isClean_fileHeader {file : Path} (h : HasNoEscape file.text) : IsClean (fileHeader file) := by
  rw [fileHeader, underlined, plain, isClean_append_iff, isClean_singleton_iff, isClean_singleton_iff]
  exact ⟨h, by decide⟩

theorem isClean_violationLine {violation : Violation} (h : HasNoEscape violation.message) :
    IsClean (violationLine violation) := by
  have hlabel : HasNoEscape (padded violation.severity.label) := by
    cases violation.severity <;> decide
  simp only [violationLine, plain, colored, dimmed, isClean_append_iff, isClean_singleton_iff,
    hasNoEscape_append_iff, hasNoEscape_toString, hasNoEscape_ruleId, h, hlabel]
  decide

theorem isClean_sections {violations : List Violation}
    (h : ∀ violation ∈ violations, HasNoEscape violation.file.text ∧ HasNoEscape violation.message)
    (current : Option Path) : IsClean (sections current violations) := by
  induction violations generalizing current with
  | nil => exact List.forall_mem_nil _
  | cons violation violations ih =>
    obtain ⟨⟨hfile, hmessage⟩, hrest⟩ := List.forall_mem_cons.1 h
    have hheader := isClean_fileHeader hfile
    have hline := isClean_violationLine hmessage
    cases current with
    | none =>
      rw [sections_none, isClean_append_iff, isClean_append_iff]
      exact ⟨⟨hheader, hline⟩, ih hrest _⟩
    | some file =>
      rw [sections_some, isClean_append_iff, isClean_append_iff]
      refine ⟨⟨?_, hline⟩, ih hrest _⟩
      split
      · exact List.forall_mem_nil _
      · exact isClean_append_iff.2 ⟨isClean_singleton_iff.2 (by decide), hheader⟩

theorem isClean_failureLine {failure : ParseFailure} (hfile : HasNoEscape failure.file.text)
    (hmessage : HasNoEscape failure.message) : IsClean (failureLine failure) := by
  simp only [failureLine, plain, colored, isClean_append_iff, isClean_singleton_iff, hasNoEscape_append_iff,
    hasNoEscape_toString, hfile, hmessage]
  decide

theorem isClean_summary (outcome : Outcome) : IsClean (summary outcome) := by
  rw [summary, isClean_append_iff, isClean_append_iff]
  refine ⟨⟨?_, ?_⟩, ?_⟩
  · split
    · exact isClean_singleton_iff.2 (by decide)
    · exact isClean_singleton_iff.2 (by decide)
  · simp only [plain, isClean_singleton_iff, hasNoEscape_append_iff, hasNoEscape_toString]
    decide
  · split
    · exact List.forall_mem_nil _
    · simp only [plain, isClean_singleton_iff, hasNoEscape_append_iff, hasNoEscape_toString]
      decide

end Pieces

/-- A report in color is the report without color once its escape sequences are taken out, if the paths and the
messages in it have no escape character. Rule ids never have one. -/
theorem withoutEscapes_human {outcome : Outcome}
    (hviolations : ∀ violation ∈ outcome.violations,
      HasNoEscape violation.file.text ∧ HasNoEscape violation.message)
    (hfailures : ∀ failure ∈ outcome.failures, HasNoEscape failure.file.text ∧ HasNoEscape failure.message) :
    withoutEscapes (human outcome).toAnsi.toList = (human outcome).toPlain.toList := by
  apply Styled.withoutEscapes_toAnsi
  rw [human, Styled.isClean_append_iff, Styled.isClean_append_iff, violationsPart, Styled.isClean_append_iff]
  refine ⟨⟨⟨isClean_sections hviolations none, ?_⟩, ?_⟩, isClean_summary outcome⟩
  · split
    · exact List.forall_mem_nil _
    · exact Styled.isClean_singleton_iff.2 (by decide)
  · intro span hspan
    obtain ⟨failure, hfailure, hmem⟩ := List.mem_flatMap.1 hspan
    obtain ⟨hfile, hmessage⟩ := hfailures failure hfailure
    exact isClean_failureLine hfile hmessage span hmem

/-- Texts that look like parts of escape sequences. -/
def bracketed : Outcome where
  violations :=
    [⟨Builtin.nestCombinators.id, ⟨"[0m/31.scss"⟩, ⟨31, 1⟩, 7, .warning, "[1m m", ".a"⟩,
     ⟨Builtin.nestCombinators.id, ⟨"4m.css"⟩, ⟨1, 2⟩, 1, .error, "33m[", ".b"⟩]
  failures := [⟨⟨"[2m.css"⟩, ⟨1, 1⟩, 0, "Unexpected '\x7d'"⟩]
  filesChecked := 3
  rulesExecuted := 1

theorem withoutEscapes_human_bracketed :
    (human bracketed).toAnsi ≠ (human bracketed).toPlain ∧
      withoutEscapes (human bracketed).toAnsi.toList = (human bracketed).toPlain.toList := by
  exact ⟨by decide +kernel, withoutEscapes_human (by decide) (by decide)⟩

end SelectorLint.Report
