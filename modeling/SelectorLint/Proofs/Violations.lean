import SelectorLint.Proofs.Findings
import SelectorLint.Proofs.Order
import SelectorLint.Proofs.Position
import SelectorLint.Proofs.Registry
import SelectorLint.Proofs.Selector.Faults
import SelectorLint.Proofs.Sorting
import SelectorLint.Proofs.Stylesheet.Headings

/-!
# The violations of a file

The violations of a stylesheet come in the order of their offsets: the style rules stand one after the
other, and what a rule has against a selector comes in the order of the selector. Since positions grow
with offsets, sorting does not change anything among the violations of one file
(`Registry.checkSource_inOrder`).
-/

namespace SelectorLint

open Stylesheet Text

/-! ## Violations in one style rule -/

section Remarks

variable {rule : EnabledRule} {style : StyleRule}

theorem EnabledRule.offset_le_of_mem_remarks {remark : Remark} (h : remark ∈ rule.remarks style) :
    remark.offset ≤ byteLength style.selector.toList := by
  unfold remarks at h
  split at h
  next fault hfault =>
    rw [List.mem_singleton.1 h]
    exact Selector.offset_le_of_parse hfault
  next tree htree =>
    rcases List.mem_map.1 h with ⟨finding, hfinding, rfl⟩
    have hsublist := rule.options.policy.sublist_offsets tree style.selector style.parent
    have hoffset := hsublist.mem (List.mem_map_of_mem hfinding)
    rcases List.mem_map.1 hoffset with ⟨label, hlabel, heq⟩
    have hwithin := (Selector.labels_of_parse htree).within label hlabel
    show finding.offset ≤ _
    omega

theorem EnabledRule.pairwise_remarks (rule : EnabledRule) (style : StyleRule) :
    (rule.remarks style).Pairwise fun first second => first.offset ≤ second.offset := by
  unfold remarks
  split
  · exact List.pairwise_singleton _ _
  next tree htree =>
    have hordered := List.pairwise_map.2 (Selector.labels_of_parse htree).ordered
    have hsublist := rule.options.policy.sublist_offsets tree style.selector style.parent
    rw [List.pairwise_map]
    exact List.pairwise_map.1 (hordered.sublist hsublist)

end Remarks

section Check

variable {rule : EnabledRule} {file : Path} {lines : LineIndex} {style : StyleRule}
  {violation : Violation}

/-- What the violations of one rule in one file have in common, wherever they are. -/
theorem EnabledRule.of_mem_check (h : violation ∈ rule.check file lines style) :
    violation.rule = rule.id ∧ violation.file = file ∧ violation.selector = style.selector ∧
      violation.position = lines.position violation.offset := by
  rcases List.mem_map.1 h with ⟨remark, -, rfl⟩
  exact ⟨rfl, rfl, rfl, rfl⟩

theorem EnabledRule.offset_of_mem_check (h : violation ∈ rule.check file lines style) :
    style.offset ≤ violation.offset ∧ violation.offset ≤ style.stop := by
  rcases List.mem_map.1 h with ⟨remark, hremark, rfl⟩
  have hle := offset_le_of_mem_remarks hremark
  show _ ≤ style.offset + remark.offset ∧ style.offset + remark.offset ≤ style.offset + _
  omega

theorem EnabledRule.pairwise_check (rule : EnabledRule) (file : Path) (lines : LineIndex)
    (style : StyleRule) :
    (rule.check file lines style).Pairwise fun first second => first.offset ≤ second.offset := by
  unfold check
  rw [List.pairwise_map]
  apply (rule.pairwise_remarks style).imp
  intro first second hle
  show style.offset + first.offset ≤ style.offset + second.offset
  omega

/-- A violation in a style rule of a text points into the selector of that rule, and it has the position
of its offset in the text. -/
structure Violation.LiesIn (violation : Violation) (source : List Char) (style : StyleRule) : Prop where
  selector : violation.selector = style.selector
  start : style.offset ≤ violation.offset
  stop : violation.offset ≤ style.stop
  inside : violation.offset < byteLength source
  position : StandsAt source violation.offset violation.position

end Check

/-! ## Violations in a stylesheet -/

section Source

variable {dialect : Dialect} {source : String} {styles : List StyleRule}

theorem EnabledRule.liesIn_of_mem_check {rule : EnabledRule} {file : Path} {style : StyleRule}
    {violation : Violation} (hrules : RulesOf dialect source.toList styles) (hstyle : style ∈ styles)
    (h : violation ∈ rule.check file (.ofText source) style) :
    violation.LiesIn source.toList style := by
  have hoffset := offset_of_mem_check h
  have hstopped := hrules.stopped style hstyle
  rcases of_mem_check h with ⟨-, -, hselector, hposition⟩
  refine ⟨hselector, hoffset.1, hoffset.2, by omega, ?_⟩
  rw [hposition]
  exact LineIndex.standsAt_position source violation.offset

/-- Style rules do not overlap, so what is found in them comes in order. -/
theorem EnabledRule.pairwise_flatMap_check (rule : EnabledRule) (file : Path) (lines : LineIndex)
    (hrules : RulesOf dialect source.toList styles) :
    (styles.flatMap (rule.check file lines)).Pairwise
      fun first second => first.offset ≤ second.offset := by
  rw [List.pairwise_flatMap]
  constructor
  · intro style _
    exact rule.pairwise_check file lines style
  · apply hrules.ordered.imp
    intro before after hbefore first hfirst second hsecond
    have hstop := (offset_of_mem_check hfirst).2
    have hstart := (offset_of_mem_check hsecond).1
    omega

end Source

namespace Registry

section Members

variable {registry : Registry} {file : Path} {source : String} {dialect : Dialect}
  {violations : List Violation}

theorem exists_styles_of_checkSource (h : registry.checkSource file source dialect = .ok violations) :
    ∃ styles, parse dialect source = .ok styles ∧
      violations = registry.flatMap fun rule => styles.flatMap (rule.check file (.ofText source)) := by
  rcases exists_of_bind_eq_ok h with ⟨styles, hstyles, hall⟩
  cases hall
  exact ⟨styles, hstyles, rfl⟩

theorem exists_check_of_checkSource {violation : Violation}
    (h : registry.checkSource file source dialect = .ok violations) (hmem : violation ∈ violations) :
    ∃ rule ∈ registry, ∃ styles, parse dialect source = .ok styles ∧ ∃ style ∈ styles,
      violation ∈ rule.check file (.ofText source) style := by
  rcases exists_styles_of_checkSource h with ⟨styles, hstyles, rfl⟩
  rcases List.mem_flatMap.1 hmem with ⟨rule, hrule, hviolation⟩
  rcases List.mem_flatMap.1 hviolation with ⟨style, hstyle, hcheck⟩
  exact ⟨rule, hrule, styles, hstyles, style, hstyle, hcheck⟩

theorem file_of_mem_checkSource {violation : Violation}
    (h : registry.checkSource file source dialect = .ok violations) (hmem : violation ∈ violations) :
    violation.file = file := by
  rcases exists_check_of_checkSource h hmem with ⟨rule, -, styles, -, style, -, hcheck⟩
  exact (EnabledRule.of_mem_check hcheck).2.1

theorem position_of_mem_checkSource {violation : Violation}
    (h : registry.checkSource file source dialect = .ok violations) (hmem : violation ∈ violations) :
    violation.position = (LineIndex.ofText source).position violation.offset := by
  rcases exists_check_of_checkSource h hmem with ⟨rule, -, styles, -, style, -, hcheck⟩
  exact (EnabledRule.of_mem_check hcheck).2.2.2

end Members

section OneRule

/-! With more than one rule the offsets would not be in order, since violations come rule by rule. -/

variable {enabled : Option EnabledRule} {file : Path} {source : String} {dialect : Dialect}
  {violations : List Violation}

theorem pairwise_offset_of_checkSource
    (h : checkSource enabled.toList file source dialect = .ok violations) :
    violations.Pairwise fun first second => first.offset ≤ second.offset := by
  rcases exists_styles_of_checkSource h with ⟨styles, hstyles, rfl⟩
  cases enabled with
  | none => exact .nil
  | some rule =>
    rw [Option.toList_some, List.flatMap_singleton]
    exact rule.pairwise_flatMap_check file _ (rules_of_parse hstyles)

/-- Where positions do not overflow, the violations are sorted. -/
theorem pairwise_compare_of_checkSource
    (h : checkSource enabled.toList file source dialect = .ok violations)
    (hbound : byteLength source.toList + 1 < UInt32.size) :
    violations.Pairwise fun first second => (first.compare second).isLE := by
  apply (pairwise_offset_of_checkSource h).imp_of_mem
  intro first second hfirst hsecond hle
  rcases exists_check_of_checkSource h hfirst with ⟨rule, hrule, _, _, _, _, hcheck⟩
  rcases exists_check_of_checkSource h hsecond with
    ⟨other, hother, styles, hstyles, style, hstyle, hlast⟩
  have hsame : rule = other :=
    Option.mem_unique (Option.mem_toList.1 hrule) (Option.mem_toList.1 hother)
  have hinside := (EnabledRule.liesIn_of_mem_check (rules_of_parse hstyles) hstyle hlast).inside
  apply Violation.isLE_compare
  · rw [file_of_mem_checkSource h hfirst, file_of_mem_checkSource h hsecond]
  · rw [(EnabledRule.of_mem_check hcheck).1, (EnabledRule.of_mem_check hlast).1, hsame]
  · rw [position_of_mem_checkSource h hfirst, position_of_mem_checkSource h hsecond]
    exact LineIndex.position_le hle (by omega)

end OneRule

/-! ## Violations in many files -/

theorem filter_violations_checkFile (registry : Registry) (file : StyleFile) (source : String)
    (path : Path) :
    (registry.checkFile file source).violations.filter (fun violation => violation.file = path) =
      if file.path = path then (registry.checkFile file source).violations else [] := by
  unfold checkFile
  split
  next violations hviolations =>
    have hfile : ∀ violation ∈ violations, violation.file = file.path := by
      intro violation hmem
      exact file_of_mem_checkSource hviolations hmem
    show violations.filter _ = if _ then violations else []
    split
    next heq =>
      apply List.filter_eq_self.2
      intro violation hmem
      rw [hfile violation hmem]
      exact decide_eq_true heq
    next hne =>
      apply List.filter_eq_nil_iff.2
      intro violation hmem
      rw [hfile violation hmem]
      simpa using hne
  · simp [FileOutcome.violations]

theorem checkFiles_cons (registry : Registry) (read : Path → Option String) (file : StyleFile)
    (files : List StyleFile) :
    registry.checkFiles read (file :: files) =
      ((read file.path).map (registry.checkFile file)).toList ++ registry.checkFiles read files := by
  unfold checkFiles
  rw [List.filterMap_cons]
  cases read file.path <;> rfl

/-- The violations of one file come from that file. -/
theorem filter_violations_checkFiles (registry : Registry) (read : Path → Option String)
    (files : List StyleFile) (path : Path) :
    ((registry.checkFiles read files).flatMap FileOutcome.violations).filter
        (fun violation => violation.file = path) =
      (registry.checkFiles read (files.filter fun file => file.path = path)).flatMap
        FileOutcome.violations := by
  induction files with
  | nil => rfl
  | cons file rest ih =>
    rw [checkFiles_cons, List.flatMap_append, List.filter_append, ih]
    have hfile : (((read file.path).map (registry.checkFile file)).toList.flatMap
        FileOutcome.violations).filter (fun violation => violation.file = path) =
          if file.path = path then
            ((read file.path).map (registry.checkFile file)).toList.flatMap FileOutcome.violations
          else [] := by
      cases read file.path with
      | none => simp
      | some source =>
        rw [Option.map_some, Option.toList_some, List.flatMap_singleton]
        exact filter_violations_checkFile registry file source path
    rw [hfile]
    by_cases hpath : file.path = path
    · rw [if_pos hpath, List.filter_cons_of_pos (by simpa using hpath), checkFiles_cons,
        List.flatMap_append]
    · rw [if_neg hpath, List.filter_cons_of_neg (by simpa using hpath), List.nil_append]

/-- Sorting changes nothing among the violations of a file that stands in the list once. -/
theorem filter_violations_execute {registry : Registry} {read : Path → Option String}
    {files : List StyleFile} {file : Path} {dialect : Dialect} {source : String}
    {violations : List Violation} (hread : read file = some source)
    (hfiles : files.filter (fun other => other.path = file) = [⟨file, dialect⟩])
    (hcheck : registry.checkSource file source dialect = .ok violations)
    (hsorted : violations.Pairwise fun first second => (first.compare second).isLE) :
    (registry.execute read files).violations.filter (fun violation => violation.file = file) =
      violations := by
  have hchecked :
      (registry.checkFiles read [⟨file, dialect⟩]).flatMap FileOutcome.violations = violations := by
    simp [checkFiles, hread, checkFile, hcheck, FileOutcome.violations]
  have hbefore := filter_violations_checkFiles registry read files file
  rw [hfiles, hchecked] at hbefore
  rw [← hbefore] at hsorted
  exact (filter_mergeSort_of_pairwise hsorted).trans hbefore

/-- The violations of a file are in order, by offset and, in a file whose positions do not overflow, by
position too. Each of them lies in the selector that it was found in. So when many files are checked, the
violations of one file are found among all the others just as they came from that file. -/
theorem checkSource_inOrder {table : RuleTable} {registry : Registry} {file : Path} {source : String}
    {dialect : Dialect} {violations : List Violation} (hbuild : build table = .ok registry)
    (hcheck : registry.checkSource file source dialect = .ok violations) :
    violations.Pairwise (fun first second => first.offset ≤ second.offset) ∧
      (∀ violation ∈ violations, ∃ rule ∈ registry, ∃ styles, parse dialect source = .ok styles ∧
        ∃ style ∈ styles, violation ∈ rule.check file (.ofText source) style ∧
          violation.LiesIn source.toList style) ∧
      (byteLength source.toList + 1 < UInt32.size →
        violations.Pairwise (fun first second => (first.compare second).isLE) ∧
          ∀ (read : Path → Option String) (files : List StyleFile), read file = some source →
            files.filter (fun other => other.path = file) = [⟨file, dialect⟩] →
              (registry.execute read files).violations.filter (fun violation => violation.file = file) =
                violations) := by
  rcases exists_toList_of_build hbuild with ⟨enabled, rfl⟩
  refine ⟨pairwise_offset_of_checkSource hcheck, ?_, ?_⟩
  · intro violation hmem
    rcases exists_check_of_checkSource hcheck hmem with
      ⟨rule, hrule, styles, hstyles, style, hstyle, hviolation⟩
    have hlies := EnabledRule.liesIn_of_mem_check (rules_of_parse hstyles) hstyle hviolation
    exact ⟨rule, hrule, styles, hstyles, style, hstyle, hviolation, hlies⟩
  · intro hbound
    have hsorted := pairwise_compare_of_checkSource hcheck hbound
    refine ⟨hsorted, ?_⟩
    intro read files hread hfiles
    exact filter_violations_execute hread hfiles hcheck hsorted

/-- A file with a finding and with a selector that cannot be read. There is another file with the same
path, written differently. -/
theorem checkSource_inOrder_unreadable :
    ∃ violations, checkSource [⟨.nestCombinators, ⟨⟨.always, .each⟩, .error⟩⟩] ⟨"x/a.scss"⟩
        ".a\n> .b \x7b\x7d\n. \x7b\x7d" .scss = .ok violations ∧
      violations.map (fun violation => (violation.offset, violation.position)) =
        [(3, ⟨2, 1⟩), (11, ⟨3, 1⟩)] ∧
      (execute [⟨.nestCombinators, ⟨⟨.always, .each⟩, .error⟩⟩]
        (fun _ => some ".a\n> .b \x7b\x7d\n. \x7b\x7d")
        [⟨⟨"x//a.scss"⟩, .scss⟩, ⟨⟨"x/a.scss"⟩, .scss⟩]).violations.filter
          (fun violation => violation.file = ⟨"x/a.scss"⟩) = violations := by
  have hbuild : build [(Builtin.nestCombinators.id, .expectation "always")] =
      .ok [⟨.nestCombinators, ⟨⟨.always, .each⟩, .error⟩⟩] := by
    unfold build RuleTable.sorted
    rw [List.mergeSort_singleton]
    rfl
  have hplaces : (checkSource [⟨.nestCombinators, ⟨⟨.always, .each⟩, .error⟩⟩] ⟨"x/a.scss"⟩
      ".a\n> .b \x7b\x7d\n. \x7b\x7d" .scss).toOption.map
        (List.map fun violation => (violation.offset, violation.position)) =
      some [(3, ⟨2, 1⟩), (11, ⟨3, 1⟩)] := by
    decide +kernel
  cases hcheck : checkSource [⟨.nestCombinators, ⟨⟨.always, .each⟩, .error⟩⟩] ⟨"x/a.scss"⟩
      ".a\n> .b \x7b\x7d\n. \x7b\x7d" .scss with
  | error fault =>
    rw [hcheck] at hplaces
    cases hplaces
  | ok violations =>
    rw [hcheck] at hplaces
    have hsorted := (checkSource_inOrder hbuild hcheck).2.2 (by decide +kernel)
    exact ⟨violations, rfl, Option.some.inj hplaces, hsorted.2 _ _ rfl (by decide)⟩

end Registry

end SelectorLint
