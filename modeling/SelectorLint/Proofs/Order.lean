import SelectorLint.Execution

/-!
# The order of violations

Paths, rule ids and violations are compared key by key, and each of these comparisons is transitive and
turns round with its arguments. So a sorted list of violations is well defined.
-/

namespace SelectorLint

open Std

section ByKey

variable {Value Key : Type} (key : Value → Key) (compare : Key → Key → Ordering)

/-- Compares two values by their keys. -/
def compareBy (first second : Value) : Ordering := compare (key first) (key second)

instance [TransCmp compare] : TransCmp (compareBy key compare) where
  eq_swap := by
    intro first second
    have hswap : compare (key first) (key second) = (compare (key second) (key first)).swap :=
      OrientedCmp.eq_swap
    exact hswap
  isLE_trans := by
    intro first second third hfirst hsecond
    have hle : (compare (key first) (key third)).isLE := TransCmp.isLE_trans hfirst hsecond
    exact hle

end ByKey

/-- The text of a component, which only names have. -/
def Component.text : Component → String
  | name text => text
  | _ => ""

theorem Component.compare_eq :
    Component.compare = compareLex (compareOn Component.rank) (compareOn Component.text) := by
  funext first second
  cases first <;> cases second <;> rfl

instance : TransCmp Component.compare := by
  rw [Component.compare_eq]
  infer_instance

/-- A component is known by its rank and its text. -/
instance : LawfulEqCmp Component.compare where
  eq_of_compare := by
    intro first second h
    rw [Component.compare_eq] at h
    obtain ⟨hranks, htexts⟩ := Ordering.then_eq_eq.1 h
    have hrank : first.rank = second.rank := LawfulEqCmp.eq_of_compare hranks
    have htext : first.text = second.text := LawfulEqCmp.eq_of_compare htexts
    cases first <;> cases second <;> simp_all [Component.rank, Component.text]

instance : TransCmp Path.compare :=
  inferInstanceAs (TransCmp (compareBy Path.components (List.compareLex Component.compare)))

theorem Path.same_iff {first second : Path} : first.same second ↔ first.components = second.components :=
  decide_eq_true_iff

/-- Two paths are the same just when neither comes before the other. -/
theorem Path.compare_eq_iff_same {first second : Path} : first.compare second = .eq ↔ first.same second := by
  have hcomponents : List.compareLex Component.compare first.components second.components = .eq ↔
      first.components = second.components := LawfulEqCmp.compare_eq_iff_eq
  rw [same_iff]
  exact hcomponents

instance : TransCmp RuleId.compare :=
  inferInstanceAs (TransCmp (compareOn RuleId.text))

theorem Violation.compare_eq :
    Violation.compare =
      compareLex (compareBy Violation.file Path.compare)
        (compareLex (compareOn fun violation => violation.position.line)
          (compareLex (compareOn fun violation => violation.position.column)
            (compareBy Violation.rule RuleId.compare))) := by
  rfl

instance : TransCmp Violation.compare := by
  rw [Violation.compare_eq]
  infer_instance

/-- Violations of one rule in one file are in the order of their positions. -/
theorem Violation.isLE_compare {first second : Violation} (hfile : first.file = second.file)
    (hrule : first.rule = second.rule)
    (hposition : first.position.line < second.position.line ∨
      first.position.line = second.position.line ∧ first.position.column ≤ second.position.column) :
    (first.compare second).isLE := by
  unfold Violation.compare
  have hfiles : first.file.compare second.file = .eq := by
    rw [hfile]
    exact ReflCmp.compare_self
  have hrules : first.rule.compare second.rule = .eq := by
    rw [hrule]
    exact ReflCmp.compare_self
  rw [hfiles, hrules]
  rcases hposition with hline | ⟨hline, hcolumn⟩
  · rw [Std.compare_eq_lt.2 hline]
    rfl
  · have hlines : Ord.compare first.position.line second.position.line = .eq :=
      LawfulEqCmp.compare_eq_iff_eq.2 hline
    have hcolumns := Std.isLE_compare.2 hcolumn
    rw [hlines, Ordering.eq_then, Ordering.eq_then, Ordering.then_eq]
    exact hcolumns

end SelectorLint
