import SelectorLint.Glob.Match
import SelectorLint.Proofs.Text.Encoding

/-!
# What globs match

`Matches` says which bytes an expression stands for, without a word about how they are found: a sequence
matches what its parts match one after the other, and a choice what one of its branches matches.

The matcher moves a set of places forward in a path. `Leads` says what it should do: the places that come out
are those that are reached from the places that go in over bytes that match. Each form of expression does
this (`leads_advance`), so that a glob is found to match a path just when its expression matches the bytes of
the path (`isMatch_iff`).
-/

namespace SelectorLint.Glob

open Text

mutual

/-- The expression matches the bytes. -/
def Expression.Matches : Expression → List UInt8 → Prop
  | .one set, text => ∃ byte, text = [byte] ∧ set.contains byte
  | .optional set, text => text = [] ∨ ∃ byte, text = [byte] ∧ set.contains byte
  | .run set, text => ∀ byte ∈ text, set.contains byte
  | .choice branches, text => MatchAny branches text

/-- The expressions match the bytes one after the other. -/
def MatchAll : List Expression → List UInt8 → Prop
  | [], text => text = []
  | expression :: rest, text =>
    ∃ front back, text = front ++ back ∧ expression.Matches front ∧ MatchAll rest back

/-- One of the sequences matches the bytes. -/
def MatchAny : List (List Expression) → List UInt8 → Prop
  | [], _ => False
  | branch :: branches, text => MatchAll branch text ∨ MatchAny branches text

end

/-- The glob matches the bytes of a path. -/
def Matches (glob : Glob) (path : String) : Prop := MatchAll glob.expression (bytes path.toList)

/-! ## Ways through a path -/

/-- The bytes lead from one place in a path to another. -/
def Between (path : List UInt8) (start : Nat) (middle : List UInt8) (stop : Nat) : Prop :=
  middle <+: path.drop start ∧ stop = start + middle.length

section Between

variable {path middle : List UInt8} {byte : UInt8} {start stop : Nat}

theorem between_nil_iff : Between path start [] stop ↔ stop = start := by
  simp [Between]

theorem between_singleton_iff : Between path start [byte] stop ↔ path[start]? = some byte ∧ stop = start + 1 := by
  have hhead : [byte] <+: path.drop start ↔ path[start]? = some byte := by
    rw [← List.head?_drop]
    cases path.drop start <;> simp [eq_comm]
  simp [Between, hhead]

theorem between_append_iff {more : List UInt8} :
    Between path start (middle ++ more) stop ↔
      ∃ between, Between path start middle between ∧ Between path between more stop := by
  constructor
  · intro h
    rcases h with ⟨⟨rest, hrest⟩, hstop⟩
    have hdrop : path.drop (start + middle.length) = more ++ rest := by
      rw [← List.drop_drop, ← hrest, List.append_assoc, List.drop_left]
    refine ⟨start + middle.length, ⟨⟨more ++ rest, ?_⟩, rfl⟩, ⟨rest, hdrop.symm⟩, ?_⟩
    · rw [← hrest, List.append_assoc]
    · rw [hstop, List.length_append, Nat.add_assoc]
  · intro h
    rcases h with ⟨between, ⟨⟨rest, hrest⟩, rfl⟩, ⟨last, hlast⟩, rfl⟩
    rw [← List.drop_drop, ← hrest, List.drop_left] at hlast
    refine ⟨⟨last, ?_⟩, ?_⟩
    · rw [List.append_assoc, hlast, hrest]
    · rw [List.length_append, Nat.add_assoc]

theorem between_cons_succ_iff :
    Between (byte :: path) (start + 1) middle (stop + 1) ↔ Between path start middle stop := by
  unfold Between
  rw [List.drop_succ_cons]
  constructor
  · intro h
    exact ⟨h.1, by omega⟩
  · intro h
    exact ⟨h.1, by omega⟩

theorem between_cons_zero_iff {first : UInt8} :
    Between (byte :: path) 0 (first :: middle) (stop + 1) ↔ first = byte ∧ Between path 0 middle stop := by
  unfold Between
  rw [List.drop_zero, List.drop_zero, List.cons_prefix_cons, List.length_cons, and_assoc]
  constructor
  · intro h
    exact ⟨h.1, h.2.1, by omega⟩
  · intro h
    exact ⟨h.1, h.2.1, by omega⟩

theorem between_zero_iff : Between path 0 middle path.length ↔ middle = path := by
  constructor
  · intro h
    exact h.1.eq_of_length (by rw [List.drop_zero, h.2, Nat.zero_add])
  · intro h
    rw [h]
    exact ⟨List.prefix_rfl, (Nat.zero_add _).symm⟩

end Between

/-- The places that come out are those that are reached from the places that go in over bytes for which
`Read` holds. -/
structure Leads (path : List UInt8) (Read : List UInt8 → Prop) (before after : Places) : Prop where
  length_eq : after.length = path.length + 1
  reached : ∀ stop, after[stop]? = some true ↔
    ∃ start middle, before[start]? = some true ∧ Read middle ∧ Between path start middle stop

namespace Places

variable {path : List UInt8} {before : Places}

theorem getElem?_union_eq_some_true_iff {first second : Places} (h : first.length = second.length) (place : Nat) :
    (first.union second)[place]? = some true ↔ first[place]? = some true ∨ second[place]? = some true := by
  by_cases hplace : place < first.length
  · have hother : place < second.length := by omega
    simp [union, List.getElem?_zipWith, List.getElem?_eq_getElem hplace, List.getElem?_eq_getElem hother]
  · have hother : ¬place < second.length := by omega
    simp [union, List.getElem?_zipWith, List.getElem?_eq_none (Nat.le_of_not_lt hplace),
      List.getElem?_eq_none (Nat.le_of_not_lt hother)]

theorem leads_afterOne (set : ByteSet) (h : before.length = path.length + 1) :
    Leads path (fun text => ∃ byte, text = [byte] ∧ set.contains byte) before (before.afterOne set path) := by
  refine ⟨by simp [afterOne, h], ?_⟩
  intro stop
  cases stop with
  | zero =>
    constructor
    · intro hstart
      cases hstart
    · intro hway
      rcases hway with ⟨start, -, -, ⟨byte, rfl, -⟩, hbetween⟩
      cases (between_singleton_iff.1 hbetween).2
  | succ place =>
    rw [afterOne, List.getElem?_cons_succ, List.getElem?_zipWith]
    constructor
    · intro hplace
      cases hbefore : before[place]? with
      | none => simp [hbefore] at hplace
      | some old =>
        cases hbyte : path[place]? with
        | none => simp [hbefore, hbyte] at hplace
        | some byte =>
          simp only [hbefore, hbyte, Option.some.injEq, Bool.and_eq_true] at hplace
          obtain ⟨rfl, hcontains⟩ := hplace
          exact ⟨place, [byte], hbefore, ⟨byte, rfl, hcontains⟩, between_singleton_iff.2 ⟨hbyte, rfl⟩⟩
    · intro hway
      rcases hway with ⟨start, -, hbefore, ⟨byte, rfl, hcontains⟩, hbetween⟩
      obtain ⟨hbyte, heq⟩ := between_singleton_iff.1 hbetween
      obtain rfl : place = start := by omega
      simp [hbefore, hbyte, hcontains]

theorem length_afterRun (set : ByteSet) (path : List UInt8) (before : Places) :
    (before.afterRun set path).length = before.length := by
  fun_induction afterRun set path before with
  | case1 byte path place next places ih => simpa using ih
  | case2 => rfl

/-- A way that goes on after the first byte begins at a later place, or it goes over the first byte. -/
theorem exists_way_cons_iff {set : ByteSet} {byte : UInt8} {place next : Bool} {places : Places} {stop : Nat} :
    (∃ start middle, (place :: next :: places)[start]? = some true ∧ (∀ byte ∈ middle, set.contains byte) ∧
        Between (byte :: path) start middle (stop + 1)) ↔
      ∃ start middle, ((next || (place && set.contains byte)) :: places)[start]? = some true ∧
        (∀ byte ∈ middle, set.contains byte) ∧ Between path start middle stop := by
  constructor
  · intro hway
    rcases hway with ⟨start, middle, hplace, hread, hbetween⟩
    cases start with
    | zero =>
      obtain rfl : place = true := by simpa using hplace
      cases middle with
      | nil => cases between_nil_iff.1 hbetween
      | cons first middle =>
        obtain ⟨rfl, hrest⟩ := between_cons_zero_iff.1 hbetween
        obtain ⟨hfirst, hmiddle⟩ := List.forall_mem_cons.1 hread
        exact ⟨0, middle, by simp [hfirst], hmiddle, hrest⟩
    | succ start =>
      refine ⟨start, middle, ?_, hread, between_cons_succ_iff.1 hbetween⟩
      cases start with
      | zero =>
        obtain rfl : next = true := by simpa using hplace
        rfl
      | succ start => exact hplace
  · intro hway
    rcases hway with ⟨start, middle, hplace, hread, hbetween⟩
    cases start with
    | zero =>
      have hcases : next = true ∨ place = true ∧ set.contains byte := by simpa using hplace
      rcases hcases with rfl | ⟨rfl, hbyte⟩
      · exact ⟨1, middle, rfl, hread, between_cons_succ_iff.2 hbetween⟩
      · exact ⟨0, byte :: middle, rfl, List.forall_mem_cons.2 ⟨hbyte, hread⟩,
          between_cons_zero_iff.2 ⟨rfl, hbetween⟩⟩
    | succ start => exact ⟨start + 2, middle, hplace, hread, between_cons_succ_iff.2 hbetween⟩

theorem leads_afterRun (set : ByteSet) (h : before.length = path.length + 1) :
    Leads path (fun text => ∀ byte ∈ text, set.contains byte) before (before.afterRun set path) := by
  refine ⟨by rw [length_afterRun, h], ?_⟩
  induction path generalizing before with
  | nil =>
    intro stop
    have hnone : before.afterRun set [] = before := by simp [afterRun]
    rw [hnone]
    constructor
    · intro hstop
      exact ⟨stop, [], hstop, by simp, between_nil_iff.2 rfl⟩
    · intro hway
      rcases hway with ⟨start, middle, hstart, -, hbetween⟩
      obtain rfl : middle = [] := by simpa using hbetween.1
      rwa [between_nil_iff.1 hbetween]
  | cons byte path ih =>
    intro stop
    obtain ⟨place, tail, rfl⟩ := List.exists_cons_of_length_eq_add_one h
    obtain ⟨next, places, rfl⟩ := List.exists_cons_of_length_eq_add_one (Nat.succ.inj h)
    cases stop with
    | zero =>
      constructor
      · intro hstart
        exact ⟨0, [], hstart, by simp, between_nil_iff.2 rfl⟩
      · intro hway
        rcases hway with ⟨start, middle, hstart, -, -, hstop⟩
        obtain rfl : start = 0 := by omega
        exact hstart
    | succ stop =>
      have hlength : ((next || (place && set.contains byte)) :: places).length = path.length + 1 := by
        simpa using h
      rw [afterRun, List.getElem?_cons_succ, ih hlength, exists_way_cons_iff]

end Places

/-! ## Ways through an expression -/

section Leads

variable {path : List UInt8} {First Second : List UInt8 → Prop} {before middle after : Places}

theorem Leads.refl (h : before.length = path.length + 1) : Leads path (· = []) before before := by
  refine ⟨h, ?_⟩
  intro stop
  constructor
  · intro hstop
    exact ⟨stop, [], hstop, rfl, between_nil_iff.2 rfl⟩
  · intro hway
    rcases hway with ⟨start, -, hstart, rfl, hbetween⟩
    rwa [between_nil_iff.1 hbetween]

theorem Leads.trans (hfirst : Leads path First before middle) (hsecond : Leads path Second middle after) :
    Leads path (fun text => ∃ front back, text = front ++ back ∧ First front ∧ Second back) before after := by
  refine ⟨hsecond.length_eq, ?_⟩
  intro stop
  rw [hsecond.reached]
  constructor
  · intro hway
    rcases hway with ⟨between, back, hplace, hback, hlast⟩
    rcases (hfirst.reached between).1 hplace with ⟨start, front, hstart, hfront, hway⟩
    exact ⟨start, front ++ back, hstart, ⟨front, back, rfl, hfront, hback⟩,
      between_append_iff.2 ⟨between, hway, hlast⟩⟩
  · intro hway
    rcases hway with ⟨start, -, hstart, ⟨front, back, rfl, hfront, hback⟩, hbetween⟩
    rcases between_append_iff.1 hbetween with ⟨between, hway, hlast⟩
    exact ⟨between, back, (hfirst.reached between).2 ⟨start, front, hstart, hfront, hway⟩, hback, hlast⟩

theorem Leads.union (hfirst : Leads path First before middle) (hsecond : Leads path Second before after) :
    Leads path (fun text => First text ∨ Second text) before (middle.union after) := by
  have hlength : middle.length = after.length := hfirst.length_eq.trans hsecond.length_eq.symm
  refine ⟨?_, ?_⟩
  · simp [Places.union, hfirst.length_eq, hsecond.length_eq]
  · intro stop
    rw [Places.getElem?_union_eq_some_true_iff hlength, hfirst.reached, hsecond.reached]
    constructor
    · intro hways
      rcases hways with ⟨start, text, hstart, hread, hway⟩ | ⟨start, text, hstart, hread, hway⟩
      · exact ⟨start, text, hstart, .inl hread, hway⟩
      · exact ⟨start, text, hstart, .inr hread, hway⟩
    · intro hways
      rcases hways with ⟨start, text, hstart, hread | hread, hway⟩
      · exact .inl ⟨start, text, hstart, hread, hway⟩
      · exact .inr ⟨start, text, hstart, hread, hway⟩

theorem getElem?_map_false_ne {Value : Type} (values : List Value) (place : Nat) :
    (values.map fun _ => false)[place]? ≠ some true := by
  intro htrue
  obtain ⟨_, -, hfalse⟩ := List.mem_map.1 (List.mem_of_getElem? htrue)
  cases hfalse

theorem Leads.never (h : before.length = path.length + 1) :
    Leads path (fun _ => False) before (before.map fun _ => false) := by
  refine ⟨by rw [List.length_map, h], ?_⟩
  intro stop
  apply iff_of_false (getElem?_map_false_ne before stop)
  rintro ⟨start, middle, -, hread, -⟩
  exact hread

end Leads

mutual

/-- An expression leads over the bytes that it matches. -/
theorem leads_advance {path : List UInt8} : ∀ (expression : Expression) {before : Places},
    before.length = path.length + 1 →
      Leads path expression.Matches before (expression.advance path before)
  | .one set, _, h => Places.leads_afterOne set h
  | .optional set, _, h => (Leads.refl h).union (Places.leads_afterOne set h)
  | .run set, _, h => Places.leads_afterRun set h
  | .choice branches, _, h => leads_advanceAny branches h

theorem leads_advanceAll {path : List UInt8} : ∀ (expressions : List Expression) {before : Places},
    before.length = path.length + 1 →
      Leads path (MatchAll expressions) before (advanceAll path before expressions)
  | [], _, h => Leads.refl h
  | expression :: rest, _, h =>
    have hfirst := leads_advance expression h
    hfirst.trans (leads_advanceAll rest hfirst.length_eq)

theorem leads_advanceAny {path : List UInt8} : ∀ (branches : List (List Expression)) {before : Places},
    before.length = path.length + 1 →
      Leads path (MatchAny branches) before (advanceAny path before branches)
  | [], _, h => Leads.never h
  | branch :: branches, _, h => (leads_advanceAll branch h).union (leads_advanceAny branches h)

end

theorem Places.getElem?_start_eq_some_true_iff {path : List UInt8} {place : Nat} :
    (Places.start path)[place]? = some true ↔ place = 0 := by
  cases place with
  | zero => simp [Places.start]
  | succ place =>
    rw [Places.start, List.getElem?_cons_succ]
    exact iff_of_false (getElem?_map_false_ne path place) (Nat.succ_ne_zero place)

/-- The matcher finds just what the expression of the glob matches. -/
theorem isMatch_iff (glob : Glob) (path : String) : glob.isMatch path ↔ glob.Matches path := by
  have hleads : Leads (bytes path.toList) (MatchAll glob.expression) (Places.start (bytes path.toList))
      (advanceAll (bytes path.toList) (Places.start (bytes path.toList)) glob.expression) :=
    leads_advanceAll glob.expression (by simp [Places.start])
  rw [isMatch, toList_toUTF8, Places.atEnd, decide_eq_true_iff, List.getLast?_eq_getElem?, hleads.length_eq,
    Nat.add_sub_cancel, hleads.reached]
  constructor
  · intro hway
    rcases hway with ⟨start, middle, hstart, hmatch, hbetween⟩
    obtain rfl := Places.getElem?_start_eq_some_true_iff.1 hstart
    rwa [Matches, ← between_zero_iff.1 hbetween]
  · intro hmatch
    exact ⟨0, _, rfl, hmatch, between_zero_iff.2 rfl⟩

end SelectorLint.Glob
