import SelectorLint.Proofs.Execution
import SelectorLint.Report.Human

/-!
# Sections of a report

The report for people begins a section whenever a violation is of another file than the one before it. For any
violations this cuts them into runs (`exists_cut`). The violations of an outcome are sorted by file first, so a run
has all violations of its file: each file has one section, the sections are in the order of the files, and there
are no others (`human_execute_grouped`). Files are told apart as paths and not by their texts, both where the
violations are sorted and where a section begins.

What a section looks like is said twice, and neither time by the functions that write it: by its text, character by
character (`Section.text`), and by what stands out in it, which is the heading and, in each line, the rule
(`Section.marks`). There are no such marks outside of sections.
-/

namespace SelectorLint.Report

open Std

/-- A part of a report: the file in its heading, and the violations under it. -/
structure Section where
  file : Path
  violations : List Violation
  deriving DecidableEq, Repr

namespace Section

/-- The pieces that a section is written in: the heading, a line for each violation, and an empty line. -/
def lines (part : Section) : Styled :=
  fileHeader part.file ++ part.violations.flatMap violationLine ++ plain "\n"

/-- The heading is the file of the first violation, and all violations are of the same file. -/
structure Headed (part : Section) : Prop where
  head : part.violations.head?.map Violation.file = some part.file
  same : ∀ violation ∈ part.violations, violation.file.same part.file

theorem Headed.exists_mem {part : Section} (h : part.Headed) :
    ∃ violation ∈ part.violations, violation.file = part.file := by
  obtain ⟨violation, hhead, hfile⟩ := Option.map_eq_some_iff.1 h.head
  exact ⟨violation, List.mem_of_mem_head? hhead, hfile⟩

theorem headed_cons {violation : Violation} {more : List Violation}
    (h : ∀ other ∈ more, other.file.same violation.file) :
    Headed ⟨violation.file, violation :: more⟩ := by
  refine ⟨rfl, ?_⟩
  intro other hother
  rcases List.mem_cons.1 hother with rfl | hother
  · exact Path.same_iff.2 rfl
  · exact h other hother

theorem Headed.filter_eq_nil {part : Section} (h : part.Headed) {path : Path} (hother : ¬part.file.same path) :
    (part.violations.filter fun violation => violation.file.same path) = [] := by
  rw [List.filter_eq_nil_iff]
  intro violation hviolation hsame
  rw [Path.same_iff] at hother hsame
  exact hother ((Path.same_iff.1 (h.same violation hviolation)).symm.trans hsame)

end Section

/-! ## Runs of violations -/

/-- The sections have the violations in their order, and no two in a row are of the same file. -/
structure Cut (violations : List Violation) (parts : List Section) : Prop where
  all : violations = parts.flatMap Section.violations
  headed : ∀ part ∈ parts, part.Headed
  differ : parts.IsChain fun first second => ¬first.file.same second.file

/-- What is written after a violation: further violations of its file, and then sections. -/
theorem exists_cut_after (file : Path) (violations : List Violation) :
    ∃ (more : List Violation) (parts : List Section),
      sections (some file) violations ++ plain "\n" =
        more.flatMap violationLine ++ plain "\n" ++ parts.flatMap Section.lines ∧
      violations = more ++ parts.flatMap Section.violations ∧
      (∀ violation ∈ more, violation.file.same file) ∧ (∀ part ∈ parts, part.Headed) ∧
      (file :: parts.map Section.file).IsChain fun first second => ¬first.same second := by
  induction violations generalizing file with
  | nil => exact ⟨[], [], rfl, rfl, by simp, by simp, by simp⟩
  | cons violation rest ih =>
    obtain ⟨more, parts, hwritten, hall, hmore, hparts, hdiffer⟩ := ih violation.file
    rw [sections_some]
    by_cases hsame : file.same violation.file
    · -- the violation goes on with the run
      have hcomponents := Path.same_iff.1 hsame
      refine ⟨violation :: more, parts, ?_, ?_, ?_, hparts, ?_⟩
      · simp [hsame, hwritten]
      · rw [hall, List.cons_append]
      · intro other hother
        rw [Path.same_iff, hcomponents]
        rcases List.mem_cons.1 hother with rfl | hother
        · rfl
        · exact Path.same_iff.1 (hmore other hother)
      · simp only [Path.same_iff] at hdiffer ⊢
        rw [List.isChain_cons] at hdiffer ⊢
        rw [hcomponents]
        exact hdiffer
    · -- the run ends, and the violation begins the next section
      refine ⟨[], ⟨violation.file, violation :: more⟩ :: parts, ?_, ?_, by simp, ?_, ?_⟩
      · simp [hsame, hwritten, Section.lines]
      · simp [hall]
      · intro part hpart
        rcases List.mem_cons.1 hpart with rfl | hpart
        · exact Section.headed_cons hmore
        · exact hparts part hpart
      · exact List.isChain_cons_cons.2 ⟨hsame, hdiffer⟩

theorem exists_cut (violations : List Violation) :
    ∃ parts, Cut violations parts ∧ violationsPart violations = parts.flatMap Section.lines := by
  unfold violationsPart
  cases violations with
  | nil => exact ⟨[], ⟨rfl, by simp, by simp⟩, rfl⟩
  | cons violation rest =>
    obtain ⟨more, parts, hwritten, hall, hmore, hparts, hdiffer⟩ := exists_cut_after violation.file rest
    refine ⟨⟨violation.file, violation :: more⟩ :: parts, ⟨?_, ?_, ?_⟩, ?_⟩
    · simp [hall]
    · intro part hpart
      rcases List.mem_cons.1 hpart with rfl | hpart
      · exact Section.headed_cons hmore
      · exact hparts part hpart
    · have hfiles : ((⟨violation.file, violation :: more⟩ :: parts : List Section).map Section.file).IsChain
          fun first second => ¬first.same second := hdiffer
      exact (List.isChain_map Section.file).1 hfiles
    · rw [sections_none]
      simp [hwritten, Section.lines]

/-! ## Sorted violations -/

/-- The violation does not come after the other one of the same file: its line comes first, or else its column, or
else its rule does not come later. -/
def NotAfterInFile (first second : Violation) : Prop :=
  first.position.line < second.position.line ∨ first.position.line = second.position.line ∧
    (first.position.column < second.position.column ∨
      first.position.column = second.position.column ∧ first.rule.text ≤ second.rule.text)

namespace Cut

variable {violations : List Violation} {parts : List Section}

theorem exists_part_iff (h : Cut violations parts) (path : Path) :
    (∃ part ∈ parts, part.file.same path) ↔ ∃ violation ∈ violations, violation.file.same path := by
  rw [h.all]
  constructor
  · rintro ⟨part, hpart, hsame⟩
    obtain ⟨violation, hviolation, hfile⟩ := (h.headed part hpart).exists_mem
    exact ⟨violation, List.mem_flatMap.2 ⟨part, hpart, hviolation⟩, hfile ▸ hsame⟩
  · rintro ⟨violation, hviolation, hsame⟩
    obtain ⟨part, hpart, hviolation⟩ := List.mem_flatMap.1 hviolation
    have hheading := Path.same_iff.1 ((h.headed part hpart).same violation hviolation)
    exact ⟨part, hpart, Path.same_iff.2 (hheading ▸ Path.same_iff.1 hsame)⟩

/-- Neighbours are in the order of their files, and this order is transitive. -/
theorem increasing (h : Cut violations parts) (hsorted : violations.Pairwise Violation.NotAfter) :
    parts.Pairwise fun first second => first.file.compare second.file = .lt := by
  have : Trans (fun first second : Section => first.file.compare second.file = .lt)
      (fun first second : Section => first.file.compare second.file = .lt)
      (fun first second : Section => first.file.compare second.file = .lt) := ⟨TransCmp.lt_trans⟩
  rw [h.all, List.pairwise_flatMap] at hsorted
  apply List.IsChain.pairwise
  rw [List.isChain_iff_forall_rel_of_append_cons_cons]
  rintro first second before after rfl
  have hdiffer := List.isChain_iff_forall_rel_of_append_cons_cons.1 h.differ rfl
  have hneighbours := (List.pairwise_cons.1 (List.pairwise_append.1 hsorted.2).2.1).1 second (by simp)
  obtain ⟨one, hone, hfirst⟩ := (h.headed first (by simp)).exists_mem
  obtain ⟨other, hother, hsecond⟩ := (h.headed second (by simp)).exists_mem
  have hnotAfter := hneighbours one hone other hother
  unfold Violation.NotAfter at hnotAfter
  rw [hfirst, hsecond, Path.compare_eq_iff_same] at hnotAfter
  rcases hnotAfter with hlt | ⟨hsame, -⟩
  · exact hlt
  · exact absurd hsame hdiffer

/-- The violations of a file are all in one section, since those of the others are of other files. -/
theorem violations_eq_filter (h : Cut violations parts) (hsorted : violations.Pairwise Violation.NotAfter)
    {part : Section} (hpart : part ∈ parts) :
    part.violations = violations.filter fun violation => violation.file.same part.file := by
  have hincreasing := h.increasing hsorted
  rw [h.all, List.filter_flatMap]
  obtain ⟨before, after, rfl⟩ := List.append_of_mem hpart
  rw [List.pairwise_append, List.pairwise_cons] at hincreasing
  obtain ⟨-, ⟨hafter, -⟩, hbefore⟩ := hincreasing
  have hnone : ∀ other ∈ before ++ after,
      (other.violations.filter fun violation => violation.file.same part.file) = [] := by
    intro other hother
    have hheaded : other.Headed := h.headed other (by grind)
    apply hheaded.filter_eq_nil
    intro hsame
    have heq : other.file.compare part.file = .eq := Path.compare_eq_iff_same.2 hsame
    have hswapped : part.file.compare other.file = .eq := OrientedCmp.eq_symm heq
    rcases List.mem_append.1 hother with hother | hother
    · simp [hbefore other hother part (by simp)] at heq
    · simp [hafter other hother] at hswapped
  have hown : (part.violations.filter fun violation => violation.file.same part.file) = part.violations :=
    List.filter_eq_self.2 (h.headed part hpart).same
  rw [List.flatMap_append, List.flatMap_cons, hown]
  rw [List.flatMap_eq_nil_iff.2 fun other hother => hnone other (by simp [hother]),
    List.flatMap_eq_nil_iff.2 fun other hother => hnone other (by simp [hother]),
    List.nil_append, List.append_nil]

/-- Within a section the file does not tell violations apart, so that the other keys do. -/
theorem ordered (h : Cut violations parts) (hsorted : violations.Pairwise Violation.NotAfter)
    {part : Section} (hpart : part ∈ parts) : part.violations.Pairwise NotAfterInFile := by
  rw [h.all, List.pairwise_flatMap] at hsorted
  apply (hsorted.1 part hpart).imp_of_mem
  intro first second hfirst hsecond hnotAfter
  have hsame := (h.headed part hpart).same
  have heq : first.file.compare second.file = .eq := by
    rw [Path.compare_eq_iff_same, Path.same_iff, Path.same_iff.1 (hsame first hfirst),
      Path.same_iff.1 (hsame second hsecond)]
  rcases hnotAfter with hlt | ⟨-, hkeys⟩
  · simp [heq] at hlt
  · exact hkeys

end Cut

/-! ## The text of a section -/

/-- A severity in a line, with blanks up to the width of the longest one. -/
def severityColumn : Severity → String
  | .error => "error  "
  | .warning => "warning"

/-- The line of a violation: where it is, how severe it is, what is wrong, and the rule that says so. -/
def lineText (violation : Violation) : String :=
  "  " ++ toString violation.position.line.toNat ++ ":" ++ toString violation.position.column.toNat ++ "  "
    ++ severityColumn violation.severity ++ "  " ++ violation.message ++ "  " ++ violation.rule.text ++ "\n"

/-- The text of a section: the path of the file on a line of its own, the lines of the violations, and an empty
line. -/
def Section.text (part : Section) : String :=
  part.file.text ++ "\n" ++ String.join (part.violations.map lineText) ++ "\n"

theorem Styled.toPlain_append (first second : Styled) :
    Styled.toPlain (first ++ second) = first.toPlain ++ second.toPlain := by
  simp [Styled.toPlain]

theorem Styled.toPlain_flatMap {Value : Type} (write : Value → Styled) (values : List Value) :
    Styled.toPlain (values.flatMap write) = String.join (values.map fun value => (write value).toPlain) := by
  induction values with
  | nil => rfl
  | cons value values ih =>
    rw [List.flatMap_cons, Styled.toPlain_append, ih, List.map_cons, String.join_cons]

theorem padded_label (severity : Severity) : padded severity.label = severityColumn severity := by
  cases severity <;> decide

theorem toPlain_violationLine (violation : Violation) : (violationLine violation).toPlain = lineText violation := by
  unfold violationLine lineText
  rw [padded_label]
  simp [Styled.toPlain, plain, colored, dimmed, String.append_assoc]

theorem toPlain_lines (part : Section) : part.lines.toPlain = part.text := by
  unfold Section.lines Section.text
  rw [Styled.toPlain_append, Styled.toPlain_append, Styled.toPlain_flatMap]
  simp only [toPlain_violationLine]
  rfl

/-! ## What stands out in a report -/

/-- A piece of a report that is underlined or dimmed. -/
inductive Mark where
  | heading (text : String)
  | rule (text : String)
  deriving DecidableEq, Repr

/-- The text of a heading. -/
def Mark.heading? : Mark → Option String
  | heading text => some text
  | rule _ => none

/-- What a piece stands out as: headings are underlined, and rules are dimmed. -/
def Span.mark? (span : Span) : Option Mark :=
  if span.style.any Style.underlined then some (.heading span.text)
  else if span.style.any Style.dimmed then some (.rule span.text)
  else none

/-- The headings and rules of a report, from top to bottom. -/
def marks (report : Styled) : List Mark := report.filterMap Span.mark?

/-- The headings of a report. -/
def headings (report : Styled) : List String := (marks report).filterMap Mark.heading?

/-- The heading of a section, and the rule of each violation. -/
def Section.marks (part : Section) : List Mark :=
  .heading part.file.text :: part.violations.map fun violation => .rule violation.rule.text

theorem marks_append (first second : Styled) : marks (first ++ second) = marks first ++ marks second :=
  List.filterMap_append

theorem marks_flatMap {Value : Type} (write : Value → Styled) (values : List Value) :
    marks (values.flatMap write) = values.flatMap fun value => marks (write value) :=
  List.filterMap_flatMap

theorem marks_violationLine (violation : Violation) :
    marks (violationLine violation) = [.rule violation.rule.text] := rfl

theorem marks_failureLine (failure : ParseFailure) : marks (failureLine failure) = [] := rfl

theorem marks_summary (outcome : Outcome) : marks (summary outcome) = [] := by
  unfold summary
  cases outcome.passed <;> cases outcome.failures.isEmpty <;> rfl

theorem marks_lines (part : Section) : marks part.lines = part.marks := by
  have hheader : marks (fileHeader part.file) = [.heading part.file.text] := rfl
  have hblank : marks (plain "\n") = [] := rfl
  unfold Section.lines Section.marks
  rw [marks_append, marks_append, marks_flatMap, hheader, hblank, List.append_nil, List.map_eq_flatMap]
  simp only [marks_violationLine, List.singleton_append]

theorem heading?_marks (part : Section) : part.marks.filterMap Mark.heading? = [part.file.text] := by
  simp [Section.marks, Mark.heading?]

/-! ## Reports of outcomes -/

/-- The report of an outcome is made of these sections, one for each file with violations. -/
structure GroupsByFile (outcome : Outcome) (parts : List Section) : Prop where
  /-- The sections stand one after the other, before the lines of failures and the summary. -/
  text : (human outcome).toPlain =
    String.join (parts.map Section.text) ++ Styled.toPlain (outcome.failures.flatMap failureLine ++ summary outcome)
  styled : human outcome =
    parts.flatMap Section.lines ++ (outcome.failures.flatMap failureLine ++ summary outcome)
  /-- There are no headings but those of the sections, and no rule is named but under its heading. -/
  marks : marks (human outcome) = parts.flatMap Section.marks
  headings : headings (human outcome) = parts.map fun part => part.file.text
  headed : ∀ part ∈ parts, part.Headed
  increasing : parts.Pairwise fun first second => first.file.compare second.file = .lt
  files : ∀ path : Path, (∃ part ∈ parts, part.file.same path) ↔
    ∃ violation ∈ outcome.violations, violation.file.same path
  violations : ∀ part ∈ parts,
    part.violations = outcome.violations.filter fun violation => violation.file.same part.file
  ordered : ∀ part ∈ parts, part.violations.Pairwise NotAfterInFile

/-- Whatever files are checked, each one with violations has one section in the report, in the order of the files,
with all its violations in the order of their lines, columns and rules. -/
theorem human_execute_grouped (registry : Registry) (read : Path → Option String) (files : List StyleFile) :
    ∃ parts, GroupsByFile (registry.execute read files) parts := by
  have hsorted := (registry.collects_execute read files).violations_sorted
  generalize registry.execute read files = outcome at hsorted ⊢
  obtain ⟨parts, hcut, hpart⟩ := exists_cut outcome.violations
  have hstyled : human outcome =
      parts.flatMap Section.lines ++ (outcome.failures.flatMap failureLine ++ summary outcome) := by
    rw [← hpart, ← List.append_assoc]
    rfl
  have hrest : marks (outcome.failures.flatMap failureLine ++ summary outcome) = [] := by
    rw [marks_append, marks_flatMap, marks_summary]
    simp [marks_failureLine]
  have hmarks : marks (human outcome) = parts.flatMap Section.marks := by
    rw [hstyled, marks_append, marks_flatMap, hrest, List.append_nil]
    simp only [marks_lines]
  refine ⟨parts, ?_, hstyled, hmarks, ?_, hcut.headed, hcut.increasing hsorted, hcut.exists_part_iff,
    fun _ => hcut.violations_eq_filter hsorted, fun _ => hcut.ordered hsorted⟩
  · rw [hstyled, Styled.toPlain_append, Styled.toPlain_flatMap]
    simp only [toPlain_lines]
  · rw [headings, hmarks, List.filterMap_flatMap, List.map_eq_flatMap]
    simp only [heading?_marks]

/-- Two files. The one with two violations comes first as a path, but not as a text, and is given last. -/
def pair : List StyleFile := [⟨⟨"x-b.scss"⟩, .scss⟩, ⟨⟨"x/a.scss"⟩, .scss⟩]

/-- The texts of the two files. -/
def pairText (path : Path) : Option String :=
  if path.text = "x/a.scss" then some ".a .b \x7b\n  .c.d \x7b\x7d\n\x7d\n" else some ".p > .q \x7b\x7d\n"

/-- The rule that both files are checked by. -/
def pairRules : Registry := [⟨.nestCombinators, ⟨⟨.always, .each⟩, .error⟩⟩]

/-- What comes of the two files. -/
def pairOutcome : Outcome := pairRules.execute pairText pair

theorem pairOutcome_eq :
    pairOutcome =
      { violations := pair.reverse.flatMap (pairRules.violationsIn pairText)
        failures := []
        filesChecked := 2
        rulesExecuted := 1 } := by
  have hfailures : pair.filterMap (Registry.failureIn pairText) = [] := by decide +kernel
  rw [pairOutcome, Registry.execute_eq, hfailures, List.mergeSort_nil,
    Registry.mergeSort_violationsIn_of_perm (by decide) (List.reverse_perm pair).symm,
    List.mergeSort_of_pairwise (by decide +kernel)]
  rfl

theorem human_execute_grouped_pair :
    (∃ parts, GroupsByFile pairOutcome parts ∧
      parts.map (fun part => (part.file.text, part.violations.map Violation.position)) =
        [("x/a.scss", [⟨1, 3⟩, ⟨2, 5⟩]), ("x-b.scss", [⟨1, 4⟩])]) ∧
    (human pairOutcome).toPlain =
      "x/a.scss\n"
      ++ "  1:3  error    Expected combinator \" \" of type \"combinator\" to be in a nested form"
      ++ "  scss/selector-nest-combinators\n"
      ++ "  2:5  error    Expected combinator \"d\" of type \"class\" to be in a nested form"
      ++ "  scss/selector-nest-combinators\n"
      ++ "\n"
      ++ "x-b.scss\n"
      ++ "  1:4  error    Expected combinator \">\" of type \"combinator\" to be in a nested form"
      ++ "  scss/selector-nest-combinators\n"
      ++ "\n"
      ++ "✗ 3 error(s), 0 warning(s) in 2 file(s)\n" := by
  obtain ⟨parts, h⟩ := human_execute_grouped pairRules pairText pair
  refine ⟨⟨parts, h, ?_⟩, ?_⟩
  · have hfiles : parts.map Section.file = [⟨"x/a.scss"⟩, ⟨"x-b.scss"⟩] := by
      apply (List.map_inj_right (f := Path.text) fun _ _ => congrArg Path.mk).1
      rw [List.map_map]
      exact h.headings.symm.trans (by rw [← pairOutcome, pairOutcome_eq]; decide +kernel)
    have hparts : parts.map (fun part => (part.file.text, part.violations.map Violation.position)) =
        (parts.map Section.file).map fun file => (file.text,
          (pairOutcome.violations.filter fun violation => violation.file.same file).map Violation.position) := by
      rw [List.map_map]
      apply List.map_congr_left
      intro part hpart
      rw [h.violations part hpart]
      rfl
    rw [hparts, hfiles, pairOutcome_eq]
    decide +kernel
  · rw [pairOutcome_eq]
    decide +kernel

end SelectorLint.Report
