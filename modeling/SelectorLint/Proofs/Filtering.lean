import Mathlib.Data.List.Forall2
import SelectorLint.Project.Discovery
import SelectorLint.Proofs.Glob.Directories
import SelectorLint.Proofs.Text.Run

/-!
# Which files are checked

A filter is made from the globs of files that are asked for and of those that are not, and it always has the globs
of two directories more. `Checked` says which entries are let through, by the texts of the globs and by the text of
the path; the filter lets through just these (`classify_checked`). No glob that is asked for can bring back what
lies in one of the two directories.
-/

namespace SelectorLint

open Text

/-! ## Extensions -/

/-- The file name that the path ends in has a dot and the extension at its end, in upper or lower case, and something
before the dot. -/
def Path.HasExtension (path : Path) (extension : String) : Prop :=
  ∃ name stem written, path.fileName? = some name ∧ stem ≠ [] ∧ name.toList = stem ++ '.' :: written ∧
    written.map Char.toLower = extension.toList

namespace Path

theorem extensionOf?_of_not_mem {name : String} (h : '.' ∉ name.toList) : extensionOf? name = none := by
  have hkept : ∀ c ∈ name.toList.reverse, decide (c ≠ '.') = true := by
    intro c hc
    rw [List.mem_reverse] at hc
    exact decide_eq_true (ne_of_mem_of_not_mem hc h)
  have hnone : name.toList.reverse.dropWhile (· ≠ '.') = [] := by
    rw [← List.append_nil name.toList.reverse, List.dropWhile_append_of_pos hkept]
    rfl
  simp only [extensionOf?, hnone]

/-- The extension stands after the last dot, if that is not the first character. -/
theorem extensionOf?_of_append {name : String} {stem written : List Char}
    (h : name.toList = stem ++ '.' :: written) (hdot : '.' ∉ written) :
    extensionOf? name = if stem = [] then none else some (String.ofList written) := by
  have hreversed : name.toList.reverse = written.reverse ++ '.' :: stem.reverse := by
    simp [h]
  have hkept : ∀ c ∈ written.reverse, decide (c ≠ '.') = true := by
    intro c hc
    rw [List.mem_reverse] at hc
    exact decide_eq_true (ne_of_mem_of_not_mem hc hdot)
  have hdrop : name.toList.reverse.dropWhile (· ≠ '.') = '.' :: stem.reverse := by
    rw [hreversed, List.dropWhile_append_of_pos hkept]
    rfl
  have htake : name.toList.reverse.takeWhile (· ≠ '.') = written.reverse := by
    rw [hreversed, List.takeWhile_append_of_pos hkept]
    exact List.append_nil _
  simp only [extensionOf?, hdrop, htake, List.reverse_reverse]
  cases hstem : stem.reverse with
  | nil =>
    rw [if_pos (List.reverse_eq_nil_iff.1 hstem)]
    rfl
  | cons c rest =>
    have hne : stem ≠ [] := by
      intro hnil
      simp [hnil] at hstem
    rw [if_neg hne]
    rfl

theorem extensionOf?_eq_some_iff {name extension : String} :
    extensionOf? name = some extension ↔
      ∃ stem, stem ≠ [] ∧ name.toList = stem ++ '.' :: extension.toList ∧ '.' ∉ extension.toList := by
  constructor
  · intro h
    by_cases hmem : '.' ∈ name.toList
    · obtain ⟨written, stem, hsplit, hdot⟩ := List.eq_append_cons_of_mem (List.mem_reverse.2 hmem)
      have hname : name.toList = stem.reverse ++ '.' :: written.reverse := by
        rw [← List.reverse_reverse name.toList, hsplit]
        simp
      have hdot' : '.' ∉ written.reverse := by rwa [List.mem_reverse]
      rw [extensionOf?_of_append hname hdot'] at h
      split at h
      · cases h
      next hstem =>
        obtain rfl := Option.some.inj h
        exact ⟨stem.reverse, hstem, by rw [hname, String.toList_ofList], by rwa [String.toList_ofList]⟩
    · rw [extensionOf?_of_not_mem hmem] at h
      cases h
  · intro h
    rcases h with ⟨stem, hstem, hname, hdot⟩
    rw [extensionOf?_of_append hname hdot, if_neg hstem, String.ofList_toList]

end Path

theorem Stylesheet.Dialect.ofLabel?_eq_some_iff {name : String} {dialect : Stylesheet.Dialect} :
    Stylesheet.Dialect.ofLabel? name = some dialect ↔ name = dialect.label := by
  constructor
  · intro h
    have hlabel := List.find?_some h
    exact (of_decide_eq_true hlabel).symm
  · intro h
    rw [h]
    cases dialect <;> rfl

/-- The dialect of a stylesheet is the one with the name of its extension. -/
theorem Path.dialect?_eq_some_iff {path : Path} {dialect : Stylesheet.Dialect} :
    path.dialect? = some dialect ↔ path.HasExtension dialect.label := by
  unfold dialect? extension? HasExtension
  constructor
  · intro h
    obtain ⟨extension, hextension, hdialect⟩ := Option.bind_eq_some_iff.1 h
    obtain ⟨name, hname, hwritten⟩ := Option.bind_eq_some_iff.1 hextension
    obtain ⟨stem, hstem, hsplit, -⟩ := extensionOf?_eq_some_iff.1 hwritten
    have hlower := Stylesheet.Dialect.ofLabel?_eq_some_iff.1 hdialect
    exact ⟨name, stem, extension.toList, hname, hstem, hsplit, by rw [← hlower, String.toList_ofList]⟩
  · intro h
    rcases h with ⟨name, stem, written, hname, hstem, hsplit, hlower⟩
    have hdot : '.' ∉ written := by
      intro hmem
      have hlabel : '.' ∈ dialect.label.toList := by
        rw [← hlower]
        exact List.mem_map_of_mem hmem
      cases dialect <;> exact absurd hlabel (by decide)
    have hwritten : extensionOf? name = some (String.ofList written) := by
      rw [extensionOf?_of_append hsplit hdot, if_neg hstem]
    rw [hname, Option.bind_some, hwritten, Option.bind_some, String.toList_ofList, hlower, String.ofList_toList]
    exact Stylesheet.Dialect.ofLabel?_eq_some_iff.2 rfl

/-! ## Filters -/

/-- The text is a glob, and it matches the path. -/
def Path.MatchesGlob (path : Path) (text : String) : Prop :=
  ∃ glob, Glob.parse text = .ok glob ∧ glob.Matches path.text

/-- The directories in which nothing is ever checked. -/
def closedDirectories : List String := [".git", "node_modules"]

/-- The entry at the path is one of those that are checked. -/
structure Checked (included excluded : List String) (path : Path) (isFile : Bool) : Prop where
  isFile : isFile = true
  included : included = [] ∨ ∃ glob ∈ included, path.MatchesGlob glob
  excluded : ∀ glob ∈ excluded, ¬path.MatchesGlob glob
  outside : ∀ name ∈ closedDirectories, ¬path.HasDirectory name
  stylesheet : path.HasExtension "css" ∨ path.HasExtension "scss"

/-- The globs are those that the texts are read to. -/
def ReadAs (texts : List String) (globs : List Glob) : Prop :=
  List.Forall₂ (fun text glob => Glob.parse text = .ok glob) texts globs

namespace Filter

theorem readAs_of_mapM {texts : List String} {globs : List Glob}
    (h : (texts.mapM fun text => (Glob.parse text).mapError (DiscoveryProblem.invalidGlob text)) = .ok globs) :
    ReadAs texts globs := by
  induction texts generalizing globs with
  | nil =>
    cases h
    exact .nil
  | cons text texts ih =>
    rw [List.mapM_cons] at h
    obtain ⟨glob, hglob, h⟩ := exists_of_bind_eq_ok h
    obtain ⟨rest, hrest, h⟩ := exists_of_bind_eq_ok h
    cases h
    refine .cons ?_ (ih hrest)
    cases hparse : Glob.parse text with
    | error fault =>
      rw [hparse] at hglob
      cases hglob
    | ok read =>
      rw [hparse] at hglob
      cases hglob
      rfl

theorem readAs_of_readGlobs {texts : List String} {globs : List Glob} (h : readGlobs texts = .ok globs) :
    ReadAs texts globs := by
  obtain ⟨read, hread, h⟩ := exists_of_bind_eq_ok h
  split at h
  · cases h
  · cases h
    exact readAs_of_mapM hread

/-- One of the globs is found to match just when one of the texts is a glob that matches. -/
theorem any_isMatch_iff {texts : List String} {globs : List Glob} (h : ReadAs texts globs) (path : Path) :
    (globs.any fun glob => glob.isMatch path.text) ↔ ∃ text ∈ texts, path.MatchesGlob text := by
  induction h with
  | nil => simp
  | @cons text glob texts globs hparse _ ih =>
    have hglob : path.MatchesGlob text ↔ glob.isMatch path.text := by
      rw [Glob.isMatch_iff]
      constructor
      · intro hmatch
        rcases hmatch with ⟨other, hother, hmatch⟩
        rw [hparse] at hother
        rwa [Except.ok.inj hother]
      · intro hmatch
        exact ⟨glob, hparse, hmatch⟩
    simp [ih, hglob]

/-- The globs that are always excluded are those of the closed directories. -/
theorem exists_alwaysExcluded_iff (path : Path) :
    (∃ text ∈ alwaysExcluded, path.MatchesGlob text) ↔ ∃ name ∈ closedDirectories, path.HasDirectory name := by
  have htexts : alwaysExcluded = closedDirectories.map fun name => "**/" ++ name ++ "/**" := rfl
  have hall : (closedDirectories.all fun name => name.toList.all fun c => !Glob.signs.contains c) = true := rfl
  have hplain : ∀ name ∈ closedDirectories, ∀ c ∈ name.toList, c ∉ Glob.signs := by
    intro name hname c hc
    have hname := List.all_eq_true.1 hall name hname
    simpa using List.all_eq_true.1 hname c hc
  have hmatches : ∀ name ∈ closedDirectories,
      (path.MatchesGlob ("**/" ++ name ++ "/**") ↔ path.HasDirectory name) := by
    intro name hname
    rw [← Glob.matches_directory_iff, Path.MatchesGlob, Glob.parse_directory (hplain name hname)]
    simp
  rw [htexts]
  constructor
  · intro h
    rcases h with ⟨text, htext, hmatch⟩
    obtain ⟨name, hname, rfl⟩ := List.mem_map.1 htext
    exact ⟨name, hname, (hmatches name hname).1 hmatch⟩
  · intro h
    rcases h with ⟨name, hname, hdirectory⟩
    exact ⟨_, List.mem_map_of_mem hname, (hmatches name hname).2 hdirectory⟩

section OfGlobs

variable {included excluded : List String} {filter : Filter}

theorem readAs_of_ofGlobs (h : ofGlobs included excluded = .ok filter) :
    ReadAs included filter.included ∧ ReadAs (excluded ++ alwaysExcluded) filter.excluded := by
  obtain ⟨includedGlobs, hincluded, h⟩ := exists_of_bind_eq_ok h
  obtain ⟨excludedGlobs, hexcluded, h⟩ := exists_of_bind_eq_ok h
  cases h
  exact ⟨readAs_of_readGlobs hincluded, readAs_of_readGlobs hexcluded⟩

theorem accepts_iff (h : ofGlobs included excluded = .ok filter) (path : Path) :
    filter.accepts path ↔ (included = [] ∨ ∃ glob ∈ included, path.MatchesGlob glob) ∧
      (∀ glob ∈ excluded, ¬path.MatchesGlob glob) ∧ ∀ name ∈ closedDirectories, ¬path.HasDirectory name := by
  obtain ⟨hincluded, hexcluded⟩ := readAs_of_ofGlobs h
  have hempty : filter.included.isEmpty ↔ included = [] := by
    rw [List.isEmpty_iff, ← List.length_eq_zero_iff, ← hincluded.length_eq, List.length_eq_zero_iff]
  have hnone : (filter.excluded.any fun glob => glob.isMatch path.text) = false ↔
      (∀ glob ∈ excluded, ¬path.MatchesGlob glob) ∧ ∀ name ∈ closedDirectories, ¬path.HasDirectory name := by
    rw [← Bool.not_eq_true, any_isMatch_iff hexcluded]
    simp only [List.mem_append, or_and_right, exists_or, exists_alwaysExcluded_iff]
    simp
  rw [accepts, Bool.and_eq_true, Bool.or_eq_true, Bool.not_eq_true', hempty, any_isMatch_iff hincluded, hnone]

theorem classify_eq_ok_iff {path : Path} {isFile : Bool} {file : StyleFile} :
    filter.classify path isFile = .ok file ↔
      isFile = true ∧ filter.accepts path ∧ file.path = path ∧ path.HasExtension file.dialect.label := by
  have hfile : StyleFile.ofPath? path = some file ↔ file.path = path ∧ path.HasExtension file.dialect.label := by
    rw [StyleFile.ofPath?, Option.map_eq_some_iff]
    constructor
    · intro h
      rcases h with ⟨dialect, hdialect, rfl⟩
      exact ⟨rfl, Path.dialect?_eq_some_iff.1 hdialect⟩
    · intro h
      rcases h with ⟨rfl, hextension⟩
      exact ⟨file.dialect, Path.dialect?_eq_some_iff.2 hextension, rfl⟩
  rw [← hfile, classify]
  cases isFile with
  | false => simp
  | true =>
    cases filter.accepts path with
    | false => simp
    | true => cases StyleFile.ofPath? path <;> simp

theorem hasExtension_label_iff {path : Path} :
    (∃ dialect : Stylesheet.Dialect, path.HasExtension dialect.label) ↔
      path.HasExtension "css" ∨ path.HasExtension "scss" := by
  constructor
  · intro h
    rcases h with ⟨dialect, hextension⟩
    cases dialect with
    | css => exact .inl hextension
    | scss => exact .inr hextension
  · intro h
    rcases h with hextension | hextension
    · exact ⟨.css, hextension⟩
    · exact ⟨.scss, hextension⟩

/-- A filter lets an entry through if and only if it is one of those that are checked, and then with the dialect
that its extension names. So it never lets through what lies in a closed directory, whatever the globs ask for. -/
theorem classify_checked (h : ofGlobs included excluded = .ok filter) (path : Path) (isFile : Bool) :
    ((∃ name ∈ closedDirectories, path.HasDirectory name) → ∀ file, filter.classify path isFile ≠ .ok file) ∧
      ((∃ file, filter.classify path isFile = .ok file) ↔ Checked included excluded path isFile) ∧
      ∀ file, filter.classify path isFile = .ok file →
        file.path = path ∧ path.HasExtension file.dialect.label := by
  have hchecked : (∃ file, filter.classify path isFile = .ok file) ↔ Checked included excluded path isFile := by
    constructor
    · intro hok
      rcases hok with ⟨file, hfile⟩
      obtain ⟨htrue, haccepts, -, hextension⟩ := classify_eq_ok_iff.1 hfile
      obtain ⟨hincluded, hexcluded, houtside⟩ := (accepts_iff h path).1 haccepts
      exact ⟨htrue, hincluded, hexcluded, houtside, hasExtension_label_iff.1 ⟨file.dialect, hextension⟩⟩
    · intro hchecked
      have haccepts := (accepts_iff h path).2 ⟨hchecked.included, hchecked.excluded, hchecked.outside⟩
      obtain ⟨dialect, hextension⟩ := hasExtension_label_iff.2 hchecked.stylesheet
      exact ⟨⟨path, dialect⟩, classify_eq_ok_iff.2 ⟨hchecked.isFile, haccepts, rfl, hextension⟩⟩
  refine ⟨?_, hchecked, ?_⟩
  · intro hclosed file hfile
    rcases hclosed with ⟨name, hname, hdirectory⟩
    exact (hchecked.1 ⟨file, hfile⟩).outside name hname hdirectory
  · intro file hfile
    exact (classify_eq_ok_iff.1 hfile).2.2

/-- All files are asked for but those in one directory. A stylesheet in closed directories is not let through, and
one is whose path only has names that start like theirs. -/
theorem classify_checked_everywhere :
    ∃ filter, ofGlobs ["**"] ["**/legacy/**"] = .ok filter ∧
      (∀ file, filter.classify ⟨"./a/node_modules/.git/b.scss"⟩ true ≠ .ok file) ∧
      Checked ["**"] ["**/legacy/**"] ⟨"./.gitlab/node_modules.b.SCSS"⟩ true := by
  have hlets : ((ofGlobs ["**"] ["**/legacy/**"]).toOption.any fun filter =>
      (filter.classify ⟨"./.gitlab/node_modules.b.SCSS"⟩ true).isOk) = true := by
    decide +kernel
  cases hfilter : ofGlobs ["**"] ["**/legacy/**"] with
  | error problem =>
    rw [hfilter] at hlets
    cases hlets
  | ok filter =>
    rw [hfilter] at hlets
    refine ⟨filter, rfl, ?_, ?_⟩
    · apply (classify_checked hfilter _ _).1
      exact ⟨".git", by decide, "./a/node_modules/".toList, "b.scss".toList, by decide, .inr (by decide)⟩
    · apply (classify_checked hfilter _ _).2.1.1
      cases hfile : filter.classify ⟨"./.gitlab/node_modules.b.SCSS"⟩ true with
      | error reason =>
        simp [Except.toOption, hfile, Except.isOk, Except.toBool] at hlets
      | ok file => exact ⟨file, rfl⟩

end OfGlobs

end Filter

end SelectorLint
