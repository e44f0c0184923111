/-!
# Stable sorting

Lists are sorted by a comparison that may put different values in the same place of the order. Sorting is
stable: values that compare equal, the `peers` of each other, keep their order. A sorted list is known by
its peers (`eq_of_peers_eq`), so two lists with the same peers in the same order are sorted into the same
list. From this comes what matters when values from several sources are sorted together: if only values
from the same source are peers, the order of the sources does not matter (`mergeSort_flatMap_of_perm`).
-/

namespace SelectorLint

open Std

variable {Value : Type} {compare : Value → Value → Ordering} [TransCmp compare]

theorem isLE_or_isLE (first second : Value) :
    ((compare first second).isLE || (compare second first).isLE) = true := by
  have hswap : compare second first = (compare first second).swap := OrientedCmp.eq_swap
  rw [hswap]
  cases compare first second <;> rfl

theorem pairwise_isLE_mergeSort (values : List Value) :
    (values.mergeSort fun first second => (compare first second).isLE).Pairwise
      fun first second => (compare first second).isLE := by
  apply List.pairwise_mergeSort _ isLE_or_isLE
  intro first second third hfirst hsecond
  exact TransCmp.isLE_trans hfirst hsecond

/-- What is in order among the values that are kept stays as it is when all values are sorted. -/
theorem filter_mergeSort_of_pairwise {keep : Value → Bool} {values : List Value}
    (h : (values.filter keep).Pairwise fun first second => (compare first second).isLE) :
    (values.mergeSort fun first second => (compare first second).isLE).filter keep =
      values.filter keep := by
  have hsub : (values.filter keep).Sublist
      (values.mergeSort fun first second => (compare first second).isLE) := by
    apply List.sublist_mergeSort _ isLE_or_isLE h List.filter_sublist
    intro first second third hfirst hsecond
    exact TransCmp.isLE_trans hfirst hsecond
  have hkept : (values.filter keep).Sublist
      ((values.mergeSort fun first second => (compare first second).isLE).filter keep) := by
    have hfilter := hsub.filter keep
    simp only [List.filter_filter, Bool.and_self] at hfilter
    exact hfilter
  -- Nothing else can be kept, since sorting is a permutation.
  have hperm := (List.mergeSort_perm values fun first second => (compare first second).isLE).filter keep
  exact (hkept.eq_of_length hperm.length_eq.symm).symm

/-! ## Values in the same place of the order -/

/-- The values of a list that compare equal to a given one. -/
def peers (compare : Value → Value → Ordering) (value : Value) (values : List Value) : List Value :=
  values.filter fun other => compare value other = .eq

theorem mem_peers_iff {compare : Value → Value → Ordering} {value other : Value}
    {values : List Value} :
    other ∈ peers compare value values ↔ other ∈ values ∧ compare value other = .eq := by
  unfold peers
  rw [List.mem_filter, decide_eq_true_iff]

theorem peers_cons (compare : Value → Value → Ordering) (value first : Value) (rest : List Value) :
    peers compare value (first :: rest) =
      if compare value first = .eq then first :: peers compare value rest
      else peers compare value rest := by
  unfold peers
  by_cases heq : compare value first = .eq
  · rw [List.filter_cons_of_pos (by simpa using heq), if_pos heq]
  · rw [List.filter_cons_of_neg (by simpa using heq), if_neg heq]

/-- Sorting is stable. -/
theorem peers_mergeSort (value : Value) (values : List Value) :
    peers compare value (values.mergeSort fun first second => (compare first second).isLE) =
      peers compare value values := by
  apply filter_mergeSort_of_pairwise
  rw [List.pairwise_iff_forall_sublist]
  intro first second hsub
  have hfirst := (mem_peers_iff.1 (hsub.mem (by simp : first ∈ [first, second]))).2
  have hsecond := (mem_peers_iff.1 (hsub.mem (by simp : second ∈ [first, second]))).2
  have heq : compare first second = .eq := TransCmp.eq_trans (OrientedCmp.eq_symm hfirst) hsecond
  rw [heq]
  rfl

section Same

variable {first second : List Value}

theorem mem_of_peers_eq (h : ∀ value, peers compare value first = peers compare value second)
    {value : Value} (hmem : value ∈ first) : value ∈ second := by
  have hpeer : value ∈ peers compare value first := mem_peers_iff.2 ⟨hmem, ReflCmp.compare_self⟩
  rw [h] at hpeer
  exact (mem_peers_iff.1 hpeer).1

theorem isLE_of_mem_cons {value other : Value} {rest : List Value}
    (h : (value :: rest).Pairwise fun earlier later => (compare earlier later).isLE)
    (hmem : other ∈ value :: rest) : (compare value other).isLE := by
  rcases List.mem_cons.1 hmem with rfl | hrest
  · exact ReflCmp.isLE_rfl
  · exact List.rel_of_pairwise_cons h hrest

/-- A sorted list is known by what it has in each place of the order. -/
theorem eq_of_peers_eq
    (hfirst : first.Pairwise fun earlier later => (compare earlier later).isLE)
    (hsecond : second.Pairwise fun earlier later => (compare earlier later).isLE)
    (h : ∀ value, peers compare value first = peers compare value second) : first = second := by
  induction first generalizing second with
  | nil =>
    cases second with
    | nil => rfl
    | cons other others =>
      have hmem : other ∈ [] := mem_of_peers_eq (fun value => (h value).symm) List.mem_cons_self
      cases hmem
  | cons value rest ih =>
    cases second with
    | nil =>
      have hmem : value ∈ [] := mem_of_peers_eq h List.mem_cons_self
      cases hmem
    | cons other others =>
      -- Each of the two heads is somewhere in the other list, so neither comes before the other.
      have hle : (compare value other).isLE :=
        isLE_of_mem_cons hfirst (mem_of_peers_eq (fun value => (h value).symm) List.mem_cons_self)
      have hge : (compare other value).isLE :=
        isLE_of_mem_cons hsecond (mem_of_peers_eq h List.mem_cons_self)
      have heq : compare value other = .eq := OrientedCmp.isLE_antisymm hle hge
      have hheads := h value
      rw [peers_cons, peers_cons, if_pos ReflCmp.compare_self, if_pos heq] at hheads
      obtain rfl := (List.cons.inj hheads).1
      rw [ih hfirst.of_cons hsecond.of_cons]
      intro place
      have hplace := h place
      rw [peers_cons, peers_cons] at hplace
      split at hplace
      · exact (List.cons.inj hplace).2
      · exact hplace

/-- Sorting depends only on the order of the values that compare equal. -/
theorem mergeSort_eq_of_peers_eq
    (h : ∀ value, peers compare value first = peers compare value second) :
    first.mergeSort (fun earlier later => (compare earlier later).isLE) =
      second.mergeSort fun earlier later => (compare earlier later).isLE := by
  apply eq_of_peers_eq (pairwise_isLE_mergeSort first) (pairwise_isLE_mergeSort second)
  intro value
  rw [peers_mergeSort, peers_mergeSort, h]

end Same

/-! ## Sorting what comes from several sources -/

section Sources

variable {Source : Type} [DecidableEq Source] {pieces : Source → List Value}
  {sources others : List Source}

theorem flatMap_eq_of_forall_ne {source : Source}
    (h : ∀ other ∈ sources, other ≠ source → pieces other = []) :
    sources.flatMap pieces = (List.replicate (sources.count source) source).flatMap pieces := by
  induction sources with
  | nil => rfl
  | cons first rest ih =>
    have hrest := ih fun other hmem => h other (List.mem_cons_of_mem first hmem)
    rw [List.flatMap_cons, hrest, List.count_cons]
    by_cases heq : first = source
    · subst heq
      rw [if_pos (beq_self_eq_true first), List.replicate_succ, List.flatMap_cons]
    · rw [if_neg (by simpa using heq), h first List.mem_cons_self heq, List.nil_append, Nat.add_zero]

/-- If only values from the same source compare equal, it does not matter in which order the sources
come. -/
theorem mergeSort_flatMap_of_perm (hperm : sources.Perm others)
    (hties : ∀ first ∈ sources, ∀ second ∈ sources, ∀ value ∈ pieces first, ∀ other ∈ pieces second,
      compare value other = .eq → first = second) :
    (sources.flatMap pieces).mergeSort (fun earlier later => (compare earlier later).isLE) =
      (others.flatMap pieces).mergeSort fun earlier later => (compare earlier later).isLE := by
  apply mergeSort_eq_of_peers_eq
  intro value
  unfold peers
  rw [List.filter_flatMap, List.filter_flatMap]
  by_cases hsome : ∃ source ∈ sources, ∃ peer, peer ∈ peers compare value (pieces source)
  · -- No other source than this one has a peer of the value.
    rcases hsome with ⟨source, hsource, peer, hpeer⟩
    have honly : ∀ other ∈ sources, other ≠ source → peers compare value (pieces other) = [] := by
      intro other hother hne
      apply List.eq_nil_iff_forall_not_mem.2
      intro rival hrival
      have heq : compare rival peer = .eq :=
        TransCmp.eq_trans (OrientedCmp.eq_symm (mem_peers_iff.1 hrival).2) (mem_peers_iff.1 hpeer).2
      exact hne (hties other hother source hsource rival (mem_peers_iff.1 hrival).1 peer
        (mem_peers_iff.1 hpeer).1 heq)
    have honlyOthers : ∀ other ∈ others, other ≠ source → peers compare value (pieces other) = [] := by
      intro other hother
      exact honly other (hperm.mem_iff.2 hother)
    have hothers := flatMap_eq_of_forall_ne honlyOthers
    rw [← hperm.count_eq] at hothers
    exact (flatMap_eq_of_forall_ne honly).trans hothers.symm
  · have hnone : ∀ source ∈ sources, peers compare value (pieces source) = [] := by
      intro source hsource
      apply List.eq_nil_iff_forall_not_mem.2
      intro peer hpeer
      exact hsome ⟨source, hsource, peer, hpeer⟩
    have hothers : ∀ source ∈ others, peers compare value (pieces source) = [] := by
      intro source hsource
      exact hnone source (hperm.mem_iff.2 hsource)
    exact (List.flatMap_eq_nil_iff.2 hnone).trans (List.flatMap_eq_nil_iff.2 hothers).symm

end Sources

end SelectorLint
