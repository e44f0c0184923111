import Mathlib.Data.List.Nodup
import SelectorLint.Proofs.Order
import SelectorLint.Proofs.Registry
import SelectorLint.Proofs.Sorting
import SelectorLint.Proofs.Text.Encoding

/-!
# Which settings can be used

An entry of a table is usable if its id is that of a rule of this library and its setting switches the rule
off or names an expectation (`Usable`). What there is against any other entry depends on this entry alone
(`Objection`).

A table in which each id stands once is used if all its entries are usable. Otherwise the problem is that of
the least entry, in the byte order of the ids, that is not (`build_outcome`). The third sort of problem, a rule
that is enabled twice, never comes up: a rule is added under the id that its entry has, so that the id of the
next entry is always new.
-/

namespace SelectorLint

open Text

/-! ## Settings -/

/-- The setting means something to a rule: it switches the rule off, or names an expectation. -/
def Setting.Resolves : Setting → Prop
  | .switch on => on = false
  | .expectation text => text = "always" ∨ text = "never"
  | .detailed text _ _ => text = "always" ∨ text = "never"

/-- The value of a setting that a rule looks at first: the switch, or what should name an expectation. -/
def Setting.value : Setting → String
  | .switch on => toString on
  | .expectation text => text
  | .detailed text _ _ => text

namespace RuleOptions

/-- A text that names an expectation is made into options, and any other is refused. -/
theorem map_expectation_cases (builtin : Builtin) (text : String) (complete : Expectation → RuleOptions) :
    (text = "always" ∨ text = "never") ∧ (∃ options,
        (expectation builtin text).map (fun found => some (complete found)) = .ok (some options)) ∨
      ¬(text = "always" ∨ text = "never") ∧
        (expectation builtin text).map (fun found => some (complete found)) =
          .error (.invalidOption builtin.id.text text) := by
  by_cases halways : text = "always"
  · subst halways
    exact .inl ⟨.inl rfl, complete .always, rfl⟩
  · by_cases hnever : text = "never"
    · subst hnever
      exact .inl ⟨.inr rfl, complete .never, rfl⟩
    · have hnone : Expectation.ofLabel? text = none := by
        simp [Expectation.ofLabel?, Expectation.label, Ne.symm halways, Ne.symm hnever]
      refine .inr ⟨by simp [halways, hnever], ?_⟩
      rw [expectation, hnone]
      rfl

/-- A setting gives options, or none if it switches the rule off, or else its value is refused. -/
theorem ofSetting_cases (builtin : Builtin) (setting : Setting) :
    setting.Resolves ∧ (∃ options, ofSetting builtin setting = .ok options ∧
        (options = none ↔ setting = .switch false)) ∨
      ¬setting.Resolves ∧
        ofSetting builtin setting = .error (.invalidOption builtin.id.text setting.value) := by
  cases setting with
  | switch on =>
    cases on with
    | false => exact .inl ⟨rfl, none, rfl, by simp⟩
    | true => exact .inr ⟨by simp [Setting.Resolves], rfl⟩
  | expectation text =>
    rcases map_expectation_cases builtin text fun found => ⟨⟨found, .each⟩, .error⟩ with
      ⟨hnames, options, hoptions⟩ | hrefused
    · exact .inl ⟨hnames, some options, hoptions, by simp⟩
    · exact .inr hrefused
  | detailed text severity report =>
    rcases map_expectation_cases builtin text fun found =>
        ⟨⟨found, report.getD .each⟩, severity.getD .error⟩ with
      ⟨hnames, options, hoptions⟩ | hrefused
    · exact .inl ⟨hnames, some options, hoptions, by simp⟩
    · exact .inr hrefused

end RuleOptions

/-! ## Entries -/

/-- A rule of this library has the id. -/
def RuleId.Known (id : RuleId) : Prop := ∃ builtin ∈ Builtin.all, builtin.id = id

instance (id : RuleId) : Decidable id.Known :=
  inferInstanceAs (Decidable (∃ builtin ∈ Builtin.all, builtin.id = id))

namespace RuleTable

/-- The entry is for a rule of this library, and its setting means something. -/
def Usable (entry : RuleId × Setting) : Prop := entry.1.Known ∧ entry.2.Resolves

/-- What there is against an entry that is not usable. -/
inductive Objection : RuleId × Setting → RuleProblem → Prop where
  | unknown {id setting} (hunknown : ¬id.Known) : Objection (id, setting) (.notFound id.text)
  /-- There is such a rule, but the value means nothing to it. -/
  | refused {id setting} (hknown : id.Known) (hrefused : ¬setting.Resolves) :
      Objection (id, setting) (.invalidOption id.text setting.value)

/-- The entry is the least one of the table that is not usable, in the byte order of the ids. -/
structure IsLeastUnusable (table : RuleTable) (entry : RuleId × Setting) : Prop where
  mem : entry ∈ table
  unusable : ¬Usable entry
  least : ∀ other ∈ table, ¬Usable other →
    other = entry ∨ BytesBefore entry.1.text.toList other.1.text.toList

theorem IsLeastUnusable.unique {table : RuleTable} {entry other : RuleId × Setting}
    (h : table.IsLeastUnusable entry) (hother : table.IsLeastUnusable other) : entry = other := by
  rcases h.least other hother.mem hother.unusable with heq | hbefore
  · exact heq.symm
  · rcases hother.least entry h.mem h.unusable with heq | hback
    · exact heq
    · exact absurd hback hbefore.asymm

namespace Objection

variable {entry : RuleId × Setting} {problem other : RuleProblem}

theorem not_usable (h : Objection entry problem) : ¬Usable entry := by
  intro husable
  cases h with
  | unknown hunknown => exact hunknown husable.1
  | refused _ hrefused => exact hrefused husable.2

theorem unique (h : Objection entry problem) (hother : Objection entry other) : problem = other := by
  cases h with
  | unknown hunknown =>
    cases hother with
    | unknown => rfl
    | refused hknown => exact absurd hknown hunknown
  | refused hknown =>
    cases hother with
    | unknown hunknown => exact absurd hknown hunknown
    | refused => rfl

end Objection

end RuleTable

/-! ## The order of entries -/

theorem RuleId.bytesBefore_of_isLE {first second : RuleId} (hle : (first.compare second).isLE)
    (hne : first ≠ second) : BytesBefore first.text.toList second.text.toList := by
  unfold RuleId.compare compareOfLessAndEq at hle
  split at hle
  next hlt => exact bytesBefore_iff.2 hlt
  next =>
    split at hle
    next heq =>
      cases first
      cases second
      cases heq
      exact absurd rfl hne
    next => cases hle

namespace RuleTable

variable {table other : RuleTable}

theorem sorted_perm (table : RuleTable) : table.sorted.Perm table := List.mergeSort_perm _ _

theorem nodup_sorted (h : (table.map Prod.fst).Nodup) : (table.sorted.map Prod.fst).Nodup :=
  ((sorted_perm table).map Prod.fst).nodup_iff.2 h

/-- Entries with different ids are taken in the byte order of the ids. -/
theorem pairwise_sorted (h : (table.map Prod.fst).Nodup) :
    table.sorted.Pairwise fun first second => BytesBefore first.1.text.toList second.1.text.toList := by
  have hle : table.sorted.Pairwise fun first second => (compareBy Prod.fst RuleId.compare first second).isLE :=
    pairwise_isLE_mergeSort table
  have hne := List.pairwise_map.1 (nodup_sorted h)
  exact (hle.and hne).imp fun hboth => RuleId.bytesBefore_of_isLE hboth.1 hboth.2

/-- The order in which entries are written does not matter. -/
theorem sorted_eq_of_perm (h : (table.map Prod.fst).Nodup) (hperm : other.Perm table) :
    other.sorted = table.sorted := by
  have hother : (other.map Prod.fst).Nodup := (hperm.map Prod.fst).nodup_iff.2 h
  have hsorted : other.sorted.Perm table.sorted :=
    other.sorted_perm.trans (hperm.trans table.sorted_perm.symm)
  apply hsorted.eq_of_pairwise _ (pairwise_sorted hother) (pairwise_sorted h)
  intro first second _ _ hbefore hback
  exact absurd hback hbefore.asymm

end RuleTable

/-! ## One entry after the other -/

namespace Registry

open RuleTable

variable {registry after : Registry} {id : RuleId} {entry : RuleId × Setting}

theorem get?_eq_none_iff : registry.get? id = none ↔ ∀ rule ∈ registry, rule.id ≠ id := by
  simp [get?]

/-- The id of another entry is as new after an entry as it was before. -/
theorem get?_eq_none_of_addEntry (h : registry.addEntry entry = .ok after) (hne : entry.1 ≠ id)
    (hnew : registry.get? id = none) : after.get? id = none := by
  rw [get?_eq_none_iff] at hnew ⊢
  intro rule hrule
  rcases (mem_iff_of_addEntry h).1 hrule with hold | henables
  · exact hnew rule hold
  · rw [← henables.1]
    exact hne

/-- An entry with a new id is added if it is usable. -/
theorem addEntry_cases (hnew : registry.get? entry.1 = none) :
    Usable entry ∧ (∃ after, registry.addEntry entry = .ok after) ∨
      ∃ problem, Objection entry problem ∧ registry.addEntry entry = .error problem := by
  rcases entry with ⟨id, setting⟩
  cases hbuiltin : Builtin.ofId? id with
  | none =>
    have hunknown : ¬id.Known := by
      intro hknown
      rcases hknown with ⟨builtin, hmem, hid⟩
      have hne := List.find?_eq_none.1 hbuiltin builtin hmem
      exact hne (decide_eq_true hid)
    refine .inr ⟨_, .unknown hunknown, ?_⟩
    simp only [addEntry, hbuiltin]
  | some builtin =>
    obtain rfl := id_of_ofId? hbuiltin
    have hknown : builtin.id.Known := ⟨builtin, List.mem_of_find?_eq_some hbuiltin, rfl⟩
    simp only [addEntry, hbuiltin, configure]
    rcases RuleOptions.ofSetting_cases builtin setting with
      ⟨hresolves, options, hoptions, -⟩ | ⟨hnot, hrefused⟩
    · refine .inl ⟨⟨hknown, hresolves⟩, ?_⟩
      rw [hoptions]
      cases options with
      | none => exact ⟨registry, rfl⟩
      | some options =>
        have hfree : registry.get? (EnabledRule.id ⟨builtin, options⟩) = none := hnew
        refine ⟨registry.insert ⟨builtin, options⟩, ?_⟩
        show registry.register ⟨builtin, options⟩ = _
        rw [register, hfree]
    · refine .inr ⟨_, .refused hknown hnot, ?_⟩
      rw [hrefused]
      rfl

/-- Entries with new ids are added one after the other, up to the first that is not usable. -/
theorem foldlM_cases {entries : RuleTable} (hnodup : (entries.map Prod.fst).Nodup)
    (hnew : ∀ entry ∈ entries, registry.get? entry.1 = none) :
    (∀ entry ∈ entries, Usable entry) ∧ (∃ after, entries.foldlM addEntry registry = .ok after) ∨
      ∃ front entry back problem, entries = front ++ entry :: back ∧ (∀ other ∈ front, Usable other) ∧
        Objection entry problem ∧ entries.foldlM addEntry registry = .error problem := by
  induction entries generalizing registry with
  | nil => exact .inl ⟨by simp, registry, rfl⟩
  | cons entry rest ih =>
    rw [List.map_cons, List.nodup_cons] at hnodup
    rw [List.foldlM_cons]
    rcases addEntry_cases (hnew entry List.mem_cons_self) with
      ⟨husable, middle, hstep⟩ | ⟨problem, hobjection, hstep⟩
    · have hrest : ∀ other ∈ rest, middle.get? other.1 = none := by
        intro other hother
        refine get?_eq_none_of_addEntry hstep ?_ (hnew other (List.mem_cons_of_mem _ hother))
        intro heq
        exact hnodup.1 (heq ▸ List.mem_map_of_mem hother)
      rw [hstep]
      rcases ih hnodup.2 hrest with
        ⟨hall, hok⟩ | ⟨front, failing, back, problem, rfl, hfront, hobjection, herror⟩
      · exact .inl ⟨List.forall_mem_cons.2 ⟨husable, hall⟩, hok⟩
      · exact .inr ⟨entry :: front, failing, back, problem, rfl,
          List.forall_mem_cons.2 ⟨husable, hfront⟩, hobjection, herror⟩
    · refine .inr ⟨[], entry, rest, problem, rfl, by simp, hobjection, ?_⟩
      rw [hstep]
      rfl

/-! ## A whole table -/

/-- A table is used if all its entries are usable, and otherwise the least one that is not is the problem. -/
theorem build_cases {table : RuleTable} (hnodup : (table.map Prod.fst).Nodup) :
    (∀ entry ∈ table, Usable entry) ∧ (∃ registry, build table = .ok registry) ∨
      ∃ entry problem, table.IsLeastUnusable entry ∧ Objection entry problem ∧
        build table = .error problem := by
  have hmem : ∀ entry, entry ∈ table.sorted ↔ entry ∈ table := fun _ => table.sorted_perm.mem_iff
  have hnew : ∀ entry ∈ table.sorted, get? [] entry.1 = none := fun _ _ => rfl
  rcases foldlM_cases (nodup_sorted hnodup) hnew with
    ⟨hall, hok⟩ | ⟨front, entry, back, problem, hsplit, hfront, hobjection, herror⟩
  · exact .inl ⟨fun entry hentry => hall entry ((hmem entry).2 hentry), hok⟩
  · have hpairs := pairwise_sorted hnodup
    refine .inr ⟨entry, problem, ⟨?_, hobjection.not_usable, ?_⟩, hobjection, herror⟩
    · rw [← hmem, hsplit]
      simp
    · intro other hother hunusable
      rw [← hmem, hsplit] at hother
      rw [hsplit, List.pairwise_append] at hpairs
      rcases List.mem_append.1 hother with hin | hin
      · exact absurd (hfront other hin) hunusable
      · rcases List.mem_cons.1 hin with heq | hlater
        · exact .inl heq
        · exact .inr (List.rel_of_pairwise_cons hpairs.2.1 hlater)

/-- The registry has a rule under each id of the table that is not switched off, and no other rules. -/
structure Holds (registry : Registry) (table : RuleTable) : Prop where
  isSome_iff : ∀ id, (registry.get? id).isSome ↔
    ∃ setting, (id, setting) ∈ table ∧ setting ≠ .switch false
  /-- A rule is under the id that it has itself. -/
  get?_eq_some_iff : ∀ id rule, registry.get? id = some rule ↔ rule ∈ registry ∧ rule.id = id
  nodup : (registry.map EnabledRule.id).Nodup
  /-- The rule has the options that the table gives it. -/
  options : ∀ rule ∈ registry, ∃ entry ∈ table, Enables entry rule

theorem mem_of_get? {rule : EnabledRule} (h : registry.get? id = some rule) :
    rule ∈ registry ∧ rule.id = id := by
  have hid := List.find?_some h
  exact ⟨List.mem_of_find?_eq_some h, of_decide_eq_true hid⟩

/-- If the ids of the rules differ, a rule is found under its own. -/
theorem get?_eq_some_iff_mem (hnodup : (registry.map EnabledRule.id).Nodup) {rule : EnabledRule} :
    registry.get? id = some rule ↔ rule ∈ registry ∧ rule.id = id := by
  constructor
  · exact mem_of_get?
  · intro hrule
    rcases hrule with ⟨hmem, rfl⟩
    cases hget : registry.get? rule.id with
    | none => exact absurd rfl (get?_eq_none_iff.1 hget rule hmem)
    | some found =>
      obtain ⟨hfound, hid⟩ := mem_of_get? hget
      rw [List.inj_on_of_nodup_map hnodup hfound hmem hid]

/-- A usable entry enables a rule unless it switches it off. -/
theorem exists_enables_iff (h : Usable entry) :
    (∃ rule, Enables entry rule) ↔ entry.2 ≠ .switch false := by
  constructor
  · intro hsome hoff
    rcases hsome with ⟨rule, -, hoptions⟩
    rw [hoff] at hoptions
    cases hoptions
  · intro hon
    rcases h with ⟨⟨builtin, -, hid⟩, hresolves⟩
    rcases RuleOptions.ofSetting_cases builtin entry.2 with ⟨-, options, hoptions, hnone⟩ | hrefused
    · cases options with
      | none => exact absurd (hnone.1 rfl) hon
      | some options => exact ⟨⟨builtin, options⟩, hid.symm, hoptions⟩
    · exact absurd hresolves hrefused.1

theorem holds_of_build {table : RuleTable} (hbuild : build table = .ok registry)
    (hall : ∀ entry ∈ table, Usable entry) : registry.Holds table := by
  have hnodup := nodup_of_build hbuild
  refine ⟨?_, fun _ _ => get?_eq_some_iff_mem hnodup, hnodup, fun _ => (mem_iff_of_build hbuild).1⟩
  intro id
  rw [Option.isSome_iff_exists]
  constructor
  · intro hsome
    rcases hsome with ⟨rule, hrule⟩
    obtain ⟨hmem, rfl⟩ := mem_of_get? hrule
    obtain ⟨entry, hentry, henables⟩ := (mem_iff_of_build hbuild).1 hmem
    have hon := (exists_enables_iff (hall entry hentry)).1 ⟨rule, henables⟩
    exact ⟨entry.2, henables.1 ▸ hentry, hon⟩
  · intro hsome
    rcases hsome with ⟨setting, hentry, hon⟩
    obtain ⟨rule, henables⟩ := (exists_enables_iff (hall _ hentry)).2 hon
    have hmem : rule ∈ registry := (mem_iff_of_build hbuild).2 ⟨_, hentry, henables⟩
    exact ⟨rule, (get?_eq_some_iff_mem hnodup).2 ⟨hmem, henables.1.symm⟩⟩

/-- What becomes of a table in which each id stands once, in whatever order. No rule is enabled twice. The table
is used if and only if all its entries are usable, and then the registry holds the rules that it does not switch
off. If not, the problem is the objection to the least entry that is not usable. -/
theorem build_outcome {table : RuleTable} (hnodup : (table.map Prod.fst).Nodup) :
    (∀ reason, build table ≠ .error (.invalidDefinition reason)) ∧
      ((∃ registry, build table = .ok registry) ↔ ∀ entry ∈ table, Usable entry) ∧
      (∀ registry, build table = .ok registry → registry.Holds table) ∧
      (∀ problem, build table = .error problem ↔
        ∃ entry, table.IsLeastUnusable entry ∧ Objection entry problem) ∧
      ∀ other : RuleTable, other.Perm table → build other = build table := by
  have hperm : ∀ other : RuleTable, other.Perm table → build other = build table := by
    intro other hother
    rw [build, build, sorted_eq_of_perm hnodup hother]
  rcases build_cases hnodup with ⟨hall, registry, hok⟩ | ⟨entry, problem, hleast, hobjection, herror⟩
  · rw [hok]
    refine ⟨by simp, iff_of_true ⟨registry, rfl⟩ hall, ?_, ?_, hok ▸ hperm⟩
    · intro other hother
      cases hother
      exact holds_of_build hok hall
    · intro problem
      refine iff_of_false (by simp) ?_
      intro hunusable
      rcases hunusable with ⟨entry, hleast, -⟩
      exact hleast.unusable (hall entry hleast.mem)
  · rw [herror]
    refine ⟨?_, iff_of_false (by simp) ?_, by simp, ?_, herror ▸ hperm⟩
    · intro reason heq
      cases heq
      cases hobjection
    · intro hall
      exact hleast.unusable (hall entry hleast.mem)
    · intro other
      constructor
      · intro heq
        cases heq
        exact ⟨entry, hleast, hobjection⟩
      · intro hother
        rcases hother with ⟨rival, hrival, hobjected⟩
        obtain rfl := hleast.unique hrival
        rw [hobjection.unique hobjected]

/-- The id of a rule that this library does not have. -/
def foreignId : RuleId := ⟨"a11y/contrast", by decide +kernel⟩

/-- A table with a value that means nothing, and with a foreign rule that is switched off. -/
def mistaken : RuleTable :=
  [(Builtin.nestCombinators.id, .expectation "sometimes"), (foreignId, .switch false)]

/-- The foreign rule comes first by the bytes of its id, whether it is written last or first. -/
theorem build_outcome_mistaken :
    (mistaken.map Prod.fst).Nodup ∧ build mistaken = .error (.notFound "a11y/contrast") ∧
      build mistaken.reverse = build mistaken := by
  have hnodup : (mistaken.map Prod.fst).Nodup := by decide +kernel
  have hunknown : ¬foreignId.Known := by decide +kernel
  have hobjection : Objection (foreignId, .switch false) (.notFound "a11y/contrast") := .unknown hunknown
  have hleast : mistaken.IsLeastUnusable (foreignId, .switch false) := by
    refine ⟨by simp [mistaken], hobjection.not_usable, ?_⟩
    intro other hother _
    simp only [mistaken, List.mem_cons, List.not_mem_nil, or_false] at hother
    rcases hother with rfl | rfl
    · exact .inr (bytesBefore_iff.2 (by decide +kernel))
    · exact .inl rfl
  obtain ⟨-, -, -, herror, hperm⟩ := build_outcome hnodup
  exact ⟨hnodup, (herror _).2 ⟨_, hleast, hobjection⟩, hperm _ (List.reverse_perm _)⟩

end Registry

end SelectorLint
