import SelectorLint.Text.Reading

/-!
# Texts at an offset

What it means that something stands at a byte offset of a text (`FoundAt`). The offset is the byte length of what
is before it, so it falls between two characters. Readers count from where they started, which may be in front of
the text that is left to them (`FoundFrom`). What is found is often one of a few texts, none of which is empty
(`FoundAt.offset_lt`), such as one of the quotes (`mem_quotes_of_isQuote`).
-/

namespace SelectorLint.Text

/-- The text has `start` at the byte offset. -/
def FoundAt (text : List Char) (offset : Nat) (start : List Char) : Prop :=
  ∃ front rest, text = front ++ start ++ rest ∧ byteLength front = offset

theorem foundAt_zero (start rest : List Char) : FoundAt (start ++ rest) 0 start := ⟨[], rest, rfl, rfl⟩

namespace FoundAt

variable {text start : List Char} {offset : Nat}

/-- With more text in front, it is found further along. -/
theorem append_left (h : FoundAt text offset start) (front : List Char) :
    FoundAt (front ++ text) (byteLength front + offset) start := by
  obtain ⟨before, rest, rfl, rfl⟩ := h
  exact ⟨front ++ before, rest, by simp, by simp⟩

theorem append_right (h : FoundAt text offset start) (back : List Char) : FoundAt (text ++ back) offset start := by
  obtain ⟨front, rest, rfl, hoffset⟩ := h
  exact ⟨front, rest ++ back, by simp, hoffset⟩

/-- One of some texts that are not empty is found before the end. -/
theorem offset_lt (h : FoundAt text offset start) {starts : List (List Char)} (hmem : start ∈ starts)
    (hstarts : [] ∉ starts) : offset < byteLength text := by
  obtain ⟨front, rest, rfl, rfl⟩ := h
  have hpos := byteLength_pos fun hnil : start = [] => hstarts (hnil ▸ hmem)
  rw [byteLength_append, byteLength_append]
  omega

end FoundAt

/-- What a quoted text can start with. -/
def quotes : List (List Char) := [['"'], ['\'']]

theorem mem_quotes_of_isQuote {c : Char} (h : isQuote c) : [c] ∈ quotes := by
  rcases isQuote_iff.1 h with rfl | rfl
  all_goals decide

/-- The text has `start` at this distance, counted from `before` bytes in front of the text. -/
def FoundFrom (before : Nat) (text : List Char) (distance : Nat) (start : List Char) : Prop :=
  ∃ place, FoundAt text place start ∧ distance = before + place

theorem foundFrom_head (before : Nat) (start rest : List Char) : FoundFrom before (start ++ rest) before start :=
  ⟨0, foundAt_zero start rest, rfl⟩

/-- A reader that has gone over `front` counts from further along. -/
theorem FoundFrom.append_left {before later distance : Nat} {text start : List Char}
    (h : FoundFrom later text distance start) (front : List Char) (hlater : later = before + byteLength front) :
    FoundFrom before (front ++ text) distance start := by
  obtain ⟨place, hfound, hdistance⟩ := h
  exact ⟨byteLength front + place, hfound.append_left front, by omega⟩

/-- Counted from the start of a text, the distance is an offset. -/
theorem FoundFrom.foundAt {before distance : Nat} {text start : List Char}
    (h : FoundFrom before text distance start) (front : List Char) (hbefore : before = byteLength front) :
    FoundAt (front ++ text) distance start := by
  obtain ⟨place, hfound, rfl⟩ := h
  rw [hbefore]
  exact hfound.append_left front

end SelectorLint.Text
