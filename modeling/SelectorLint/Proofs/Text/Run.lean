import SelectorLint.Text.Reading

/-!
# Runs over the pieces of a text

The pieces of a text are taken one after the other, each at its offset, by a step that may fail. A run
over a text in two parts is a run over the first and then one over the second, from the offset where
the first ends. What each step keeps, a run keeps (`Runs.invariant`).
-/

namespace SelectorLint.Text

theorem exists_of_bind_eq_ok {Error Value Other : Type} {result : Except Error Value}
    {f : Value → Except Error Other} {other : Other} (h : (result >>= f) = .ok other) :
    ∃ value, result = .ok value ∧ f value = .ok other := by
  cases result with
  | error error => cases h
  | ok value => exact ⟨value, rfl, h⟩

theorem map_eq_error_iff {Error Value Other : Type} {f : Value → Other} {result : Except Error Value}
    {error : Error} : result.map f = .error error ↔ result = .error error := by
  cases result <;> simp [Except.map]

variable {State Piece Error : Type}

theorem placed_append (text : Piece → List Char) (offset : Nat) (front back : List Piece) :
    placed text offset (front ++ back) =
      placed text offset front ++ placed text (offset + byteLength (written text front)) back := by
  induction front generalizing offset with
  | nil => rfl
  | cons piece front ih =>
    rw [List.cons_append, placed, placed, ih, List.cons_append, written_cons, byteLength_append,
      Nat.add_assoc]

/-- The pieces, which follow each other from `offset` on, bring the state `before` to `after`. -/
def Runs (text : Piece → List Char) (take : State → Placed Piece → Except Error State)
    (before : State) (offset : Nat) (pieces : List Piece) (after : State) : Prop :=
  (placed text offset pieces).foldlM take before = .ok after

namespace Runs

variable {text : Piece → List Char} {take : State → Placed Piece → Except Error State}
  {before middle after : State} {offset : Nat} {piece : Piece} {first second rest : List Piece}

theorem nil (before : State) (offset : Nat) : Runs text take before offset [] before := rfl

theorem cons (hstep : take before ⟨offset, piece⟩ = .ok middle)
    (hrest : Runs text take middle (offset + byteLength (text piece)) rest after) :
    Runs text take before offset (piece :: rest) after := by
  unfold Runs placed
  rw [List.foldlM_cons, hstep]
  exact hrest

theorem single (hstep : take before ⟨offset, piece⟩ = .ok after) :
    Runs text take before offset [piece] after :=
  cons hstep (nil _ _)

theorem exists_of_cons (h : Runs text take before offset (piece :: rest) after) :
    ∃ middle, take before ⟨offset, piece⟩ = .ok middle ∧
      Runs text take middle (offset + byteLength (text piece)) rest after :=
  exists_of_bind_eq_ok h

theorem append (hfirst : Runs text take before offset first middle)
    (hsecond : Runs text take middle (offset + byteLength (written text first)) second after) :
    Runs text take before offset (first ++ second) after := by
  unfold Runs at hfirst
  unfold Runs
  rw [placed_append, List.foldlM_append, hfirst]
  exact hsecond

/-- What is kept by each step holds after a run. It may speak of the pieces that were taken, of which `past` are
those before the run. -/
theorem invariant (Holds : List Piece → State → Prop)
    (hstep : ∀ past before piece after, Holds past before →
      take before ⟨byteLength (written text past), piece⟩ = .ok after → Holds (past ++ [piece]) after)
    {past pieces : List Piece} (hruns : Runs text take before (byteLength (written text past)) pieces after)
    (h : Holds past before) : Holds (past ++ pieces) after := by
  induction pieces generalizing past before with
  | nil =>
    cases hruns
    rw [List.append_nil]
    exact h
  | cons piece pieces ih =>
    obtain ⟨middle, htake, hrest⟩ := hruns.exists_of_cons
    have hoffset : byteLength (written text (past ++ [piece])) =
        byteLength (written text past) + byteLength (text piece) := by
      rw [written_append, byteLength_append, written_cons, written_nil, List.append_nil]
    have hall := ih (hoffset ▸ hrest) (hstep past before piece middle h htake)
    rwa [List.append_assoc, List.singleton_append] at hall

end Runs

/-- Where a run fails: at the first piece that the step does not take. -/
theorem exists_of_foldlM_eq_error {text : Piece → List Char}
    {take : State → Placed Piece → Except Error State} {before : State} {offset : Nat}
    {pieces : List Piece} {error : Error}
    (h : (placed text offset pieces).foldlM take before = .error error) :
    ∃ front piece back middle, pieces = front ++ piece :: back ∧
      Runs text take before offset front middle ∧
      take middle ⟨offset + byteLength (written text front), piece⟩ = .error error := by
  induction pieces generalizing before offset with
  | nil => cases h
  | cons piece rest ih =>
    rw [placed, List.foldlM_cons] at h
    cases hstep : take before ⟨offset, piece⟩ with
    | error fault =>
      rw [hstep] at h
      cases h
      exact ⟨[], piece, rest, before, rfl, .nil _ _, hstep⟩
    | ok middle =>
      rw [hstep] at h
      obtain ⟨front, failing, back, last, rfl, hruns, hfails⟩ := ih h
      refine ⟨piece :: front, failing, back, last, rfl, .cons hstep hruns, ?_⟩
      rw [written_cons, byteLength_append, ← Nat.add_assoc]
      exact hfails

end SelectorLint.Text
