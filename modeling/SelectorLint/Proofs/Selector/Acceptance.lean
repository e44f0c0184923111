import SelectorLint.Proofs.Selector.Arrangement

/-!
# What the assembly accepts

The assembly of a tree gets to the end of its lexemes only if `Accepts` holds of them. `Tracks` ties the
two together: it says how far an assembly has come in the terms of `Progress`. The only thing that it
needs from the tree is that a list has a child once it has a group, since empty parentheses are told by
the child list of the pseudo-class.

With the results on items and on arrangement this gives the meaning of parsing (`parse_eq_ok_iff`).
-/

namespace SelectorLint.Selector

open Text Grammar

/-- The tree `after` has what `before` has and more. -/
structure Tree.Grows (before after : Tree) : Prop where
  size_le : before.size ≤ after.size
  children_le : ∀ id, (before.children id).size ≤ (after.children id).size

namespace Tree.Grows

theorem trans {first second third : Tree} (h : Grows first second) (h' : Grows second third) :
    Grows first third :=
  ⟨Nat.le_trans h.size_le h'.size_le, fun id => Nat.le_trans (h.children_le id) (h'.children_le id)⟩

theorem append (tree : Tree) (parent : Nat) (kind : Kind) (value : String) (offset : Nat) :
    Grows tree (tree.append parent kind value offset) :=
  ⟨by simp, size_children_le_append⟩

end Tree.Grows

/-- The list at this level has come as far as `progress`. -/
structure LevelTracks (tree : Tree) (level : Level) (progress : Progress) : Prop where
  parent_lt : level.parent < tree.size
  group_eq : level.group.isSome = progress.isEnded
  phase_eq : level.phase.isCombined = progress.isCombined
  phase_start : progress.isEnded = false → level.phase = .start
  children_pos : progress ≠ .fresh → 0 < (tree.children level.parent).size

theorem LevelTracks.mono {before after : Tree} {level : Level} {progress : Progress}
    (h : LevelTracks before level progress) (hgrows : before.Grows after) :
    LevelTracks after level progress where
  parent_lt := Nat.lt_of_lt_of_le h.parent_lt hgrows.size_le
  group_eq := h.group_eq
  phase_eq := h.phase_eq
  phase_start := h.phase_start
  children_pos hne := Nat.lt_of_lt_of_le (h.children_pos hne) (hgrows.children_le _)

/-- The assembly has come as far as `progress` in its list, with `depth` lists around it. -/
structure Tracks (assembly : Assembly) (progress : Progress) (depth : Nat) : Prop where
  level : LevelTracks assembly.tree assembly.level progress
  outer : ∀ waiting ∈ assembly.outer, LevelTracks assembly.tree waiting.level .begun
  depth_eq : assembly.outer.length = depth

theorem Assembly.outer_endGroup {assembly ended : Assembly} {offset : Nat}
    (h : assembly.endGroup offset = .ok ended) : ended.outer = assembly.outer := by
  unfold Assembly.endGroup at h
  split at h
  · cases h
  next hgroup =>
    cases h
    rw [Assembly.addComments_eq hgroup]
    rfl

namespace Tracks

variable {assembly : Assembly} {progress : Progress} {depth : Nat}

/-- Levels that wait stay as they are while the tree grows. -/
theorem outer_mono (h : Tracks assembly progress depth) {tree : Tree}
    (hgrows : assembly.tree.Grows tree) :
    ∀ waiting ∈ assembly.outer, LevelTracks tree waiting.level .begun :=
  fun waiting hmem => (h.outer waiting hmem).mono hgrows

theorem new : Tracks .new .fresh 0 where
  level := ⟨Nat.zero_lt_one, rfl, rfl, fun _ => rfl, fun h => absurd rfl h⟩
  outer _ hmem := nomatch hmem
  depth_eq := rfl

theorem enter (h : Tracks assembly progress depth) (hended : progress.isEnded) (phase : Phase) :
    Tracks (assembly.enter phase) (if phase.isCombined then .combined else .begun) depth := by
  have hpos := h.level.children_pos (by rintro rfl; cases hended)
  refine ⟨⟨h.level.parent_lt, ?_, ?_, ?_, fun _ => hpos⟩, h.outer, h.depth_eq⟩
  · rw [Assembly.enter]
    rw [h.level.group_eq, hended]
    split <;> rfl
  · rw [Assembly.enter]
    cases phase <;> rfl
  · cases phase.isCombined <;> exact fun hfalse => absurd hfalse (by decide)

/-- A node that is added begins the group, if it had not begun. -/
theorem add (h : Tracks assembly progress depth) (part : Placed Part) :
    ∃ after, after.isEnded ∧ after.isCombined = progress.isCombined ∧
      Tracks (assembly.add part) after depth := by
  have hparent := h.level.parent_lt
  cases hgroup : assembly.level.group with
  | some group =>
    have hended : progress.isEnded := by rw [← h.level.group_eq, hgroup]; rfl
    have hgrows : assembly.tree.Grows (assembly.add part).tree := by
      rw [Assembly.add_eq hgroup]
      exact .append _ _ _ _ _
    refine ⟨progress, hended, rfl, ?_⟩
    rw [Assembly.add_eq hgroup] at hgrows ⊢
    exact ⟨h.level.mono hgrows, h.outer_mono hgrows, h.depth_eq⟩
  | none =>
    let opened := assembly.tree.append assembly.level.parent .selector "" part.offset
    let tree := opened.append assembly.tree.size part.piece.kind part.piece.value part.offset
    have hadd : assembly.add part =
        ⟨tree, { assembly.level with group := some assembly.tree.size }, assembly.outer⟩ := by
      simp only [Assembly.add, hgroup]
      rfl
    have hgrows : assembly.tree.Grows tree := .trans (.append _ _ _ _ _) (.append _ _ _ _ _)
    have hchild : 0 < (opened.children assembly.level.parent).size := by
      simp [opened, Tree.children_append_parent hparent]
    have hpos : 0 < (tree.children assembly.level.parent).size :=
      Nat.lt_of_lt_of_le hchild (Tree.size_children_le_append _)
    refine ⟨if progress.isCombined then .combined else .begun, ?_, ?_, ?_⟩
    · split <;> rfl
    · cases progress.isCombined <;> rfl
    · rw [hadd]
      refine ⟨⟨Nat.lt_of_lt_of_le hparent hgrows.size_le, ?_, ?_, ?_, fun _ => hpos⟩,
        h.outer_mono hgrows, h.depth_eq⟩
      · split <;> rfl
      · rw [h.level.phase_eq]
        cases progress.isCombined <;> rfl
      · cases progress.isCombined <;> exact fun hfalse => absurd hfalse (by decide)

theorem foldl_add (h : Tracks assembly progress depth) (parts : List (Placed Part)) :
    ∃ after, (progress.isEnded → after.isEnded) ∧ after.isCombined = progress.isCombined ∧
      Tracks (parts.foldl Assembly.add assembly) after depth := by
  induction parts generalizing assembly progress with
  | nil => exact ⟨progress, id, rfl, h⟩
  | cons part rest ih =>
    obtain ⟨middle, hended, hcombined, hmiddle⟩ := h.add part
    obtain ⟨after, hafter, hsame, htracks⟩ := ih hmiddle
    exact ⟨after, fun _ => hafter hended, hsame.trans hcombined, htracks⟩

theorem addComments (h : Tracks assembly progress depth) :
    ∃ after, (progress.isEnded → after.isEnded) ∧ after.isCombined = progress.isCombined ∧
      Tracks assembly.addComments after depth := by
  unfold Assembly.addComments
  split
  · exact h.foldl_add _
  · exact ⟨progress, id, rfl, h⟩

theorem takeComponent (h : Tracks assembly progress depth) (part : Placed Part) :
    Tracks (assembly.takeComponent part) .begun depth := by
  have hjoined : ∃ after, Tracks assembly.joinSpace after depth := by
    unfold Assembly.joinSpace
    split
    · obtain ⟨after, -, -, htracks⟩ := h.add _
      exact ⟨after, htracks⟩
    · exact ⟨progress, h⟩
  obtain ⟨first, hfirst⟩ := hjoined
  obtain ⟨second, -, -, hsecond⟩ := hfirst.addComments
  obtain ⟨third, hended, -, hthird⟩ := hsecond.add part
  exact hthird.enter hended .afterComponent

theorem takeBlank (h : Tracks assembly progress depth) (blank : Placed Char) :
    Tracks (assembly.takeBlank blank) progress depth := by
  unfold Assembly.takeBlank
  split
  next hphase =>
    have hcombined := h.level.phase_eq
    have hstart := h.level.phase_start
    rw [hphase] at hcombined hstart
    refine ⟨⟨h.level.parent_lt, h.level.group_eq, hcombined, ?_, h.level.children_pos⟩, h.outer,
      h.depth_eq⟩
    exact fun hfalse => nomatch hstart hfalse
  · exact h

theorem takeComment (h : Tracks assembly progress depth) (comment : Placed Part) :
    ∃ after, progress.take .comment = some after ∧
      Tracks (assembly.takeComment comment) after depth := by
  unfold Assembly.takeComment
  split
  next blank comments hphase =>
    have hcombined := h.level.phase_eq
    have hstart := h.level.phase_start
    rw [hphase] at hcombined hstart
    obtain rfl : progress = .begun := by
      cases progress with
      | begun => rfl
      | fresh | separated => cases hstart rfl
      | combined => cases hcombined
    exact ⟨.begun, rfl, h.enter rfl (.spaced blank (comments ++ [comment]))⟩
  · obtain ⟨after, hended, hcombined, htracks⟩ := h.add comment
    refine ⟨after, ?_, htracks⟩
    cases progress <;> cases after
    all_goals first
      | rfl
      | exact absurd hended (by decide)
      | exact absurd hcombined (by decide)

theorem takeCombinator (h : Tracks assembly progress depth) {sign : Placed Sign} {after : Assembly}
    (htake : assembly.takeCombinator sign = .ok after) :
    progress.take .combinator = some .combined ∧ Tracks after .combined depth := by
  unfold Assembly.takeCombinator at htake
  split at htake
  · cases htake
  next hphase =>
    cases htake
    obtain ⟨first, -, -, hfirst⟩ := h.addComments
    obtain ⟨second, hended, -, hsecond⟩ := hfirst.add ⟨sign.offset, .combinator sign.piece⟩
    refine ⟨?_, hsecond.enter hended .afterCombinator⟩
    have hcombined := h.level.phase_eq
    cases progress with
    | combined =>
      cases hcase : assembly.level.phase with
      | afterCombinator => exact absurd hcase hphase
      | start | afterComponent | spaced =>
        rw [hcase] at hcombined
        cases hcombined
    | fresh | separated | begun => rfl

theorem endGroup (h : Tracks assembly progress depth) {offset : Nat} {after : Assembly}
    (hend : assembly.endGroup offset = .ok after) :
    progress.isEnded ∧ Tracks after .separated depth := by
  unfold Assembly.endGroup at hend
  split at hend
  · cases hend
  next group hgroup =>
    have hended : progress.isEnded := by rw [← h.level.group_eq, hgroup]; rfl
    obtain ⟨middle, hmiddle, -, htracks⟩ := h.addComments
    rw [Assembly.addComments_eq hgroup] at hend htracks
    cases hend
    have hpos := htracks.level.children_pos (by rintro rfl; cases hmiddle hended)
    exact ⟨hended, ⟨htracks.level.parent_lt, rfl, rfl, fun _ => rfl, fun _ => hpos⟩,
      htracks.outer, htracks.depth_eq⟩

theorem openArguments (h : Tracks assembly progress depth) (offset : Nat) (double : Bool)
    (name : List Char) :
    Tracks (assembly.openArguments offset double name) .fresh (depth + 1) := by
  have hadded := h.takeComponent ⟨offset, .pseudo double name⟩
  refine ⟨⟨?_, rfl, rfl, fun _ => rfl, fun hne => absurd rfl hne⟩, ?_, ?_⟩
  · have hpos := hadded.level.parent_lt
    show (assembly.takeComponent ⟨offset, .pseudo double name⟩).tree.size - 1 <
      (assembly.takeComponent ⟨offset, .pseudo double name⟩).tree.size
    omega
  · exact List.forall_mem_cons.2 ⟨hadded.level, hadded.outer⟩
  · exact congrArg (· + 1) hadded.depth_eq

theorem closeArguments (h : Tracks assembly progress depth) {offset : Nat} {after : Assembly}
    (hclose : assembly.closeArguments offset = .ok after) :
    (progress.isEnded ∨ progress = .fresh) ∧
      ∃ outer, depth = outer + 1 ∧ Tracks after .begun outer := by
  unfold Assembly.closeArguments at hclose
  split at hclose
  · cases hclose
  next waiting outer houter =>
    have hdepth : depth = outer.length + 1 := by rw [← h.depth_eq, houter]; rfl
    have hwaiting := h.outer
    rw [houter] at hwaiting
    split at hclose
    next hnone =>
      cases hclose
      rw [Bool.and_eq_true, decide_eq_true_eq] at hnone
      obtain ⟨hlevel, hrest⟩ := List.forall_mem_cons.1 hwaiting
      refine ⟨.inr ?_, outer.length, hdepth, hlevel, hrest, rfl⟩
      cases progress with
      | fresh => rfl
      | separated | begun | combined =>
        have hpos := h.level.children_pos nofun
        rw [Array.isEmpty_iff.1 hnone.2] at hpos
        cases hpos
    next =>
      obtain ⟨ended, hend, rfl⟩ := map_eq_ok_iff.1 hclose
      obtain ⟨hended, htracks⟩ := h.endGroup hend
      have hsame := htracks.outer
      rw [Assembly.outer_endGroup hend, houter] at hsame
      obtain ⟨hlevel, hrest⟩ := List.forall_mem_cons.1 hsame
      exact ⟨.inl hended, outer.length, hdepth, hlevel, hrest, rfl⟩

/-- One lexeme: what is accepted after it is accepted with it in front. -/
theorem take (h : Tracks assembly progress depth) {lexeme : Placed Lexeme} {after : Assembly}
    (htake : assembly.take lexeme = .ok after) :
    ∃ progress' depth', Tracks after progress' depth' ∧
      ∀ rest, Accepts progress' depth' rest → Accepts progress depth (lexeme.piece :: rest) := by
  obtain ⟨offset, lexeme⟩ := lexeme
  cases lexeme with
  | blank c =>
    cases htake
    exact ⟨progress, depth, h.takeBlank _, fun _ => id⟩
  | comma =>
    obtain ⟨hended, htracks⟩ := h.endGroup htake
    exact ⟨.separated, depth, htracks, fun _ hrest => ⟨hended, hrest⟩⟩
  | close =>
    obtain ⟨hended, outer, hdepth, htracks⟩ := h.closeArguments htake
    exact ⟨.begun, outer, htracks, fun _ hrest => ⟨hended, outer, hdepth, hrest⟩⟩
  | call double name =>
    cases htake
    exact ⟨.fresh, depth + 1, h.openArguments offset double name, fun _ => id⟩
  | part piece =>
    cases piece with
    | combinator sign =>
      obtain ⟨hsort, htracks⟩ := h.takeCombinator htake
      exact ⟨.combined, depth, htracks, fun _ hrest => ⟨.combined, hsort, hrest⟩⟩
    | comment tail =>
      cases htake
      obtain ⟨next, hsort, htracks⟩ := h.takeComment ⟨offset, .comment tail⟩
      exact ⟨next, depth, htracks, fun _ hrest => ⟨next, hsort, hrest⟩⟩
    | _ =>
      cases htake
      exact ⟨.begun, depth, h.takeComponent _, fun _ hrest => ⟨.begun, rfl, hrest⟩⟩

theorem finish (h : Tracks assembly progress depth) {offset : Nat} {tree : Tree}
    (hfinish : assembly.finish offset = .ok tree) : Accepts progress depth [] := by
  obtain ⟨ended, hend, htree⟩ := exists_of_bind_eq_ok hfinish
  obtain ⟨hended, htracks⟩ := h.endGroup hend
  refine ⟨hended, ?_⟩
  rw [← htracks.depth_eq]
  split at htree
  next hnone => rw [hnone]; rfl
  · cases htree

/-- All lexemes. -/
theorem accepts (h : Tracks assembly progress depth) {start offset : Nat} {lexemes : List Lexeme}
    {last : Assembly} {tree : Tree}
    (hrun : Runs assembly start lexemes last)
    (hfinish : last.finish offset = .ok tree) : Accepts progress depth lexemes := by
  induction lexemes generalizing assembly progress depth start with
  | nil =>
    cases hrun
    exact h.finish hfinish
  | cons lexeme rest ih =>
    obtain ⟨middle, htake, hrest⟩ := hrun.exists_of_cons
    obtain ⟨progress', depth', htracks, haccepts⟩ := h.take htake
    exact haccepts rest (ih htracks hrest)

end Tracks

theorem accepts_of_assemble {lexing : Lexing Lexeme Fault} {tree : Tree}
    (h : assemble lexing = .ok tree) : lexing.trouble = none ∧ Accepts .fresh 0 lexing.pieces := by
  obtain ⟨last, hrun, hlast⟩ := exists_of_bind_eq_ok h
  cases htrouble : lexing.trouble with
  | some trouble =>
    simp only [htrouble] at hlast
    cases hlast
  | none =>
    simp only [htrouble] at hlast
    exact ⟨rfl, Tracks.new.accepts hrun hlast⟩

/-- A selector parses if its lexemes are those of a valid list, and its tree is the one of the list. -/
theorem parse_eq_ok_iff {selector : String} {tree : Tree} :
    parse selector = .ok tree ↔ ∃ first others, ValidList first others ∧
      lexemes selector.toList = ⟨listLexemes first others, none⟩ ∧
      tree = Tree.empty.graftAll 0 (listBranches 0 first others) := by
  constructor
  · intro h
    obtain ⟨htrouble, haccepts⟩ := accepts_of_assemble h
    obtain ⟨first, others, hlist, hpieces⟩ :=
      exists_list_of_accepts (lexemes_sound htrouble).2 haccepts
    have hlexemes : lexemes selector.toList = ⟨listLexemes first others, none⟩ := by
      rw [← hpieces, ← htrouble]
    refine ⟨first, others, hlist, hlexemes, ?_⟩
    rw [parse, hlexemes, assemble_listLexemes hlist] at h
    exact (Except.ok.inj h).symm
  · intro hread
    rcases hread with ⟨first, others, hlist, hlexemes, rfl⟩
    rw [parse, hlexemes, assemble_listLexemes hlist]

end SelectorLint.Selector
