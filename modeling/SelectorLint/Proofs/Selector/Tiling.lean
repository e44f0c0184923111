import SelectorLint.Proofs.Selector.Arrangement

/-!
# Spans of nodes in a text

Where the nodes of a selector tree stand in the selector. A node is written in one way that depends on
its kind (`Label.Written`), and it takes the bytes from its offset on. The spans of nodes tile a text if
they stand in it one after the other and what is outside of them is only white space, commas and
parentheses (`Tiles`). Tilings of two texts make one of both (`Tiles.append`), so that a whole selector
is tiled piece by piece.
-/

namespace SelectorLint.Selector

open Text

/-- The text is how a node with this label is written. -/
def Label.Written (label : Label) (text : List Char) : Prop :=
  match label.kind with
  | .className => text = '.' :: label.value.toList
  | .id => text = '#' :: label.value.toList
  | .attr => ∃ before after, (∀ c ∈ before, isBlank c) ∧ (∀ c ∈ after, isBlank c) ∧
      text = '[' :: before ++ label.value.toList ++ after ++ [']']
  | .combinator =>
    if label.value = " " then ∃ c, isSpace c ∧ text = [c] else text = label.value.toList
  | .tag | .universal | .nesting | .string | .comment | .pseudo => text = label.value.toList
  | .root | .selector => False

/-- A node with the text that it is written as, which starts at the offset of the node. -/
structure Span where
  label : Label
  text : List Char

namespace Span

/-- The offset of the first byte. -/
def start (span : Span) : Nat := span.label.offset

/-- The offset after the last byte. -/
def stop (span : Span) : Nat := span.start + byteLength span.text

/-- The byte at this offset is in the span. -/
def Contains (span : Span) (byte : Nat) : Prop := span.start ≤ byte ∧ byte < span.stop

end Span

/-- The characters between nodes. -/
def IsGap (c : Char) : Prop := isSpace c ∨ c = ',' ∨ c = '(' ∨ c = ')'

/-- The spans are those of a text that starts at `offset`. -/
structure Tiles (offset : Nat) (text : List Char) (spans : List Span) : Prop where
  ne_nil : ∀ span ∈ spans, span.text ≠ []
  written : ∀ span ∈ spans, span.label.Written span.text
  /-- A span starts and ends between characters, and its text stands there. -/
  placed : ∀ span ∈ spans, ∃ before after, text = before ++ span.text ++ after ∧
    span.start = offset + byteLength before
  ordered : spans.Pairwise fun first second => first.start < second.start ∧ first.stop ≤ second.start
  /-- A character with a byte outside of all spans is a gap. -/
  outside : ∀ before c after byte, text = before ++ c :: after →
    offset + byteLength before ≤ byte → byte < offset + byteLength before + c.utf8Size →
    (∀ span ∈ spans, ¬span.Contains byte) → IsGap c

namespace Tiles

variable {offset : Nat} {text : List Char} {spans : List Span}

theorem nil (offset : Nat) : Tiles offset [] [] := by
  refine ⟨by simp, by simp, by simp, .nil, ?_⟩
  intro before c after byte htext
  simp at htext

theorem gap {c : Char} (hc : IsGap c) (offset : Nat) : Tiles offset [c] [] := by
  refine ⟨by simp, by simp, by simp, .nil, ?_⟩
  intro before d after byte htext _ _ _
  obtain rfl : d = c := by
    have hmem : d ∈ [c] := by rw [htext]; simp
    simpa using hmem
  exact hc

theorem span {label : Label} (hoffset : label.offset = offset) (hwritten : label.Written text)
    (hne : text ≠ []) : Tiles offset text [⟨label, text⟩] := by
  refine ⟨by simpa using hne, by simpa using hwritten, ?_, by simp, ?_⟩
  · intro span hspan
    obtain rfl := List.mem_singleton.1 hspan
    exact ⟨[], [], by simp, by simpa [Span.start] using hoffset⟩
  · intro before c after byte htext hlow hhigh hout
    refine absurd ?_ (hout ⟨label, text⟩ (by simp))
    have hlength := congrArg byteLength htext
    simp only [byteLength_append, byteLength_cons] at hlength
    simp only [Span.Contains, Span.stop, Span.start, hoffset]
    omega

theorem le_start (h : Tiles offset text spans) {span : Span} (hspan : span ∈ spans) :
    offset ≤ span.start := by
  obtain ⟨before, after, -, hstart⟩ := h.placed span hspan
  omega

theorem stop_le (h : Tiles offset text spans) {span : Span} (hspan : span ∈ spans) :
    span.stop ≤ offset + byteLength text := by
  obtain ⟨before, after, htext, hstart⟩ := h.placed span hspan
  have hlength := congrArg byteLength htext
  simp only [byteLength_append] at hlength
  rw [Span.stop, hstart]
  omega

theorem append {front : List Char} {first : List Span} (hfront : Tiles offset front first)
    (h : Tiles (offset + byteLength front) text spans) :
    Tiles offset (front ++ text) (first ++ spans) := by
  refine ⟨?_, ?_, ?_, ?_, ?_⟩
  · exact List.forall_mem_append.2 ⟨hfront.ne_nil, h.ne_nil⟩
  · exact List.forall_mem_append.2 ⟨hfront.written, h.written⟩
  · refine List.forall_mem_append.2 ⟨fun span hspan => ?_, fun span hspan => ?_⟩
    · obtain ⟨before, after, htext, hstart⟩ := hfront.placed span hspan
      exact ⟨before, after ++ text, by rw [htext]; simp, hstart⟩
    · obtain ⟨before, after, htext, hstart⟩ := h.placed span hspan
      refine ⟨front ++ before, after, by rw [htext]; simp, ?_⟩
      rw [hstart, byteLength_append]
      omega
  · refine List.pairwise_append.2 ⟨hfront.ordered, h.ordered, fun left hleft right hright => ?_⟩
    have hstop := hfront.stop_le hleft
    have hstart := h.le_start hright
    have hpos := byteLength_pos (hfront.ne_nil left hleft)
    have hlength : left.stop = left.start + byteLength left.text := rfl
    omega
  · intro before c after byte htext hlow hhigh hout
    rcases List.append_eq_append_iff.1 htext with ⟨inner, rfl, hinner⟩ | ⟨inner, hinner, hafter⟩
    · rw [byteLength_append] at hlow hhigh
      exact h.outside inner c after byte hinner (by omega) (by omega)
        fun span hspan => hout span (List.mem_append_right _ hspan)
    · cases inner with
      | nil =>
        -- the character is the first one after the front
        rw [List.append_nil] at hinner
        subst hinner
        exact h.outside [] c after byte (by simpa using hafter.symm) (by simpa using hlow)
          (by simpa using hhigh) fun span hspan => hout span (List.mem_append_right _ hspan)
      | cons d inner =>
        obtain ⟨rfl, -⟩ := List.cons.inj hafter
        exact hfront.outside before c inner byte hinner hlow hhigh
          fun span hspan => hout span (List.mem_append_left _ hspan)

end Tiles

/-- The text from `offset` on is tiled by nodes with these labels. -/
def Tiled (offset : Nat) (labels : List Label) (text : List Char) : Prop :=
  ∃ spans, spans.map Span.label = labels ∧ Tiles offset text spans

namespace Tiled

variable {offset : Nat} {labels more : List Label} {front text : List Char}

theorem nil (offset : Nat) : Tiled offset [] [] := ⟨[], rfl, .nil offset⟩

theorem append (hfront : Tiled offset labels front) (h : Tiled (offset + byteLength front) more text) :
    Tiled offset (labels ++ more) (front ++ text) := by
  obtain ⟨first, rfl, hfirst⟩ := hfront
  obtain ⟨second, rfl, hsecond⟩ := h
  exact ⟨first ++ second, List.map_append, hfirst.append hsecond⟩

theorem gap {c : Char} (hc : IsGap c) (h : Tiled (offset + c.utf8Size) labels text) :
    Tiled offset labels (c :: text) := by
  have hone : Tiled offset [] [c] := ⟨[], rfl, .gap hc offset⟩
  exact hone.append h

theorem span {label : Label} (hoffset : label.offset = offset) (hwritten : label.Written front)
    (hne : front ≠ []) (h : Tiled (offset + byteLength front) labels text) :
    Tiled offset (label :: labels) (front ++ text) := by
  have hone : Tiled offset [label] front := ⟨[⟨label, front⟩], rfl, .span hoffset hwritten hne⟩
  exact hone.append h

end Tiled

end SelectorLint.Selector
