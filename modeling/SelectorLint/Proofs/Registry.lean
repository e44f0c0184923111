import Mathlib.Data.List.Perm.Subperm
import SelectorLint.Proofs.Text.Run
import SelectorLint.Rule.Registry

/-!
# Which rules are enabled

A rule is added to a registry only if its id is not there yet. So a registry that was built from a table
has each id once (`nodup_of_build`), and at most as many rules as there are in the library, which is one
(`exists_toList_of_build`). It holds just the rules that the table has options for (`mem_iff_of_build`).
-/

namespace SelectorLint.Registry

open Text

theorem insert_perm (registry : Registry) (rule : EnabledRule) :
    (registry.insert rule).Perm (rule :: registry) := by
  induction registry with
  | nil => exact .refl _
  | cons first rest ih =>
    unfold insert
    split
    · exact .refl _
    · exact (ih.cons first).trans (.swap rule first rest)

section Nodup

variable {registry after : Registry}

theorem nodup_of_register {rule : EnabledRule} (h : registry.register rule = .ok after)
    (hnodup : (registry.map EnabledRule.id).Nodup) : (after.map EnabledRule.id).Nodup := by
  unfold register at h
  split at h
  · cases h
  next hnone =>
    cases h
    have hnew : rule.id ∉ registry.map EnabledRule.id := by
      intro hmem
      rcases List.mem_map.1 hmem with ⟨other, hother, hid⟩
      have hne := List.find?_eq_none.1 hnone other hother
      exact hne (decide_eq_true hid)
    have hperm := (insert_perm registry rule).map EnabledRule.id
    exact hperm.nodup_iff.2 (List.nodup_cons.2 ⟨hnew, hnodup⟩)

theorem nodup_of_addEntry {entry : RuleId × Setting} (h : registry.addEntry entry = .ok after)
    (hnodup : (registry.map EnabledRule.id).Nodup) : (after.map EnabledRule.id).Nodup := by
  unfold addEntry at h
  split at h
  · rcases exists_of_bind_eq_ok h with ⟨options, -, hoptions⟩
    cases options with
    | none =>
      cases hoptions
      exact hnodup
    | some options => exact nodup_of_register hoptions hnodup
  · cases h

theorem nodup_of_foldlM {entries : List (RuleId × Setting)}
    (h : entries.foldlM addEntry registry = .ok after)
    (hnodup : (registry.map EnabledRule.id).Nodup) : (after.map EnabledRule.id).Nodup := by
  induction entries generalizing registry with
  | nil =>
    cases h
    exact hnodup
  | cons entry rest ih =>
    rcases exists_of_bind_eq_ok h with ⟨middle, hstep, hrest⟩
    exact ih hrest (nodup_of_addEntry hstep hnodup)

end Nodup

section Members

variable {registry after : Registry} {rule : EnabledRule}

theorem mem_iff_of_register {other : EnabledRule} (h : registry.register other = .ok after) :
    rule ∈ after ↔ rule ∈ registry ∨ rule = other := by
  unfold register at h
  split at h
  · cases h
  · cases h
    rw [(insert_perm registry other).mem_iff, List.mem_cons]
    exact or_comm

theorem eq_of_id_eq {first second : Builtin} (h : first.id = second.id) : first = second := by
  cases first
  cases second
  rfl

theorem id_of_ofId? {id : RuleId} {builtin : Builtin} (h : Builtin.ofId? id = some builtin) :
    builtin.id = id := by
  have hid := List.find?_some h
  exact of_decide_eq_true hid

/-- The entry of a table gives the rule its options. -/
def Enables (entry : RuleId × Setting) (rule : EnabledRule) : Prop :=
  entry.1 = rule.id ∧ RuleOptions.ofSetting rule.builtin entry.2 = .ok (some rule.options)

theorem mem_iff_of_addEntry {entry : RuleId × Setting} (h : registry.addEntry entry = .ok after) :
    rule ∈ after ↔ rule ∈ registry ∨ Enables entry rule := by
  unfold addEntry at h
  split at h
  next builtin hbuiltin =>
    have hid := id_of_ofId? hbuiltin
    rcases exists_of_bind_eq_ok h with ⟨options, hoptions, hadded⟩
    have hsame : Enables entry rule ↔ rule.builtin = builtin ∧ options = some rule.options := by
      constructor
      · intro henables
        have hbuiltins : rule.builtin = builtin := eq_of_id_eq (henables.1.symm.trans hid.symm)
        have hsetting := henables.2
        rw [hbuiltins, hoptions] at hsetting
        exact ⟨hbuiltins, Except.ok.inj hsetting⟩
      · intro heq
        refine ⟨?_, ?_⟩
        · rw [← hid, ← heq.1]
          rfl
        · rw [heq.1, hoptions, heq.2]
    rw [hsame]
    cases options with
    | none =>
      cases hadded
      simp
    | some options =>
      rw [mem_iff_of_register hadded]
      cases rule
      simp [eq_comm]
  · cases h

theorem mem_iff_of_foldlM {entries : List (RuleId × Setting)}
    (h : entries.foldlM addEntry registry = .ok after) :
    rule ∈ after ↔ rule ∈ registry ∨ ∃ entry ∈ entries, Enables entry rule := by
  induction entries generalizing registry with
  | nil =>
    cases h
    simp
  | cons entry rest ih =>
    rcases exists_of_bind_eq_ok h with ⟨middle, hstep, hrest⟩
    rw [ih hrest, mem_iff_of_addEntry hstep, or_assoc]
    simp only [List.mem_cons, exists_eq_or_imp]

end Members

variable {table : RuleTable} {registry : Registry}

/-- A rule is enabled with some options if the table says so, and not otherwise. -/
theorem mem_iff_of_build (h : build table = .ok registry) {rule : EnabledRule} :
    rule ∈ registry ↔ ∃ entry ∈ table, Enables entry rule := by
  rw [mem_iff_of_foldlM h]
  unfold RuleTable.sorted
  simp only [List.mem_mergeSort, List.not_mem_nil, false_or]

/-- No rule is enabled twice. -/
theorem nodup_of_build (h : build table = .ok registry) : (registry.map EnabledRule.id).Nodup :=
  nodup_of_foldlM h .nil

/-- There are no more enabled rules than rules. -/
theorem length_le_of_build (h : build table = .ok registry) : registry.length ≤ Builtin.all.length := by
  have hsubset : registry.map EnabledRule.id ⊆ Builtin.all.map Builtin.id := by
    intro id hid
    rcases List.mem_map.1 hid with ⟨rule, -, rfl⟩
    have hmem : rule.builtin ∈ Builtin.all := by
      cases rule.builtin
      decide
    exact List.mem_map_of_mem hmem
  have hle := (List.subperm_of_subset (nodup_of_build h) hsubset).length_le
  rw [List.length_map, List.length_map] at hle
  exact hle

/-- The library has one rule, which is enabled or not. -/
theorem exists_toList_of_build (h : build table = .ok registry) :
    ∃ enabled : Option EnabledRule, registry = enabled.toList := by
  have hle : registry.length ≤ 1 := length_le_of_build h
  rcases Nat.le_one_iff_eq_zero_or_eq_one.1 hle with hnone | hone
  · exact ⟨none, List.length_eq_zero_iff.1 hnone⟩
  · rcases List.length_eq_one_iff.1 hone with ⟨rule, rfl⟩
    exact ⟨some rule, rfl⟩

end SelectorLint.Registry
