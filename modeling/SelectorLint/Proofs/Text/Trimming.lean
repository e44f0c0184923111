import SelectorLint.Text.Blank

/-!
# Blanks at the ends of a text

What trimming takes away, and what is left after it.
-/

namespace SelectorLint.Text

/-! ## At the end -/

theorem exists_trimEnd_eq (text : List Char) :
    ∃ blanks, (∀ c ∈ blanks, isBlank c) ∧ text = trimEnd text ++ blanks := by
  refine ⟨(text.reverse.takeWhile isBlank).reverse, ?_, ?_⟩
  · intro c hc
    exact List.all_eq_true.1 List.all_takeWhile c (List.mem_reverse.1 hc)
  · rw [trimEnd, ← List.reverse_append, List.takeWhile_append_dropWhile, List.reverse_reverse]

theorem trimEnd_append_blanks (text : List Char) {blanks : List Char} (h : ∀ c ∈ blanks, isBlank c) :
    trimEnd (text ++ blanks) = trimEnd text := by
  rw [trimEnd, List.reverse_append, List.dropWhile_append_of_pos (by simpa using h), trimEnd]

theorem trimEnd_append_blank (text : List Char) {c : Char} (hc : isBlank c) :
    trimEnd (text ++ [c]) = trimEnd text :=
  trimEnd_append_blanks text (by simpa using hc)

theorem trimEnd_cons {c : Char} (hc : ¬isBlank c) (rest : List Char) :
    trimEnd (c :: rest) = c :: trimEnd rest := by
  rw [trimEnd, List.reverse_cons, List.dropWhile_append, trimEnd]
  split
  next hnone =>
    rw [List.isEmpty_iff] at hnone
    simp [hnone, hc]
  · simp

theorem trimEnd_concat_eq_iff {front : List Char} {c : Char} :
    trimEnd (front ++ [c]) = front ++ [c] ↔ ¬isBlank c := by
  constructor
  · intro h hc
    obtain ⟨blanks, -, hblanks⟩ := exists_trimEnd_eq front
    rw [trimEnd_append_blank front hc] at h
    have hlength := congrArg List.length hblanks
    rw [h] at hlength
    simp only [List.length_append, List.length_cons] at hlength
    omega
  · intro hc
    simp [trimEnd, hc]

/-- A trimmed text does not end in a blank. -/
theorem not_isBlank_of_getLast?_trimEnd {text : List Char} {c : Char}
    (h : (trimEnd text).getLast? = some c) : ¬isBlank c := by
  rw [trimEnd, List.getLast?_reverse] at h
  have hhead := List.head?_dropWhile_not isBlank text.reverse
  rw [h] at hhead
  simpa using hhead

theorem trimEnd_trimEnd (text : List Char) : trimEnd (trimEnd text) = trimEnd text := by
  obtain ⟨blanks, hblanks, htext⟩ := exists_trimEnd_eq text
  rw [← trimEnd_append_blanks (trimEnd text) hblanks, ← htext]

/-! ## At both ends -/

theorem exists_trim_eq (text : List Char) :
    ∃ before after, (∀ c ∈ before, isBlank c) ∧ (∀ c ∈ after, isBlank c) ∧
      text = before ++ trim text ++ after := by
  obtain ⟨after, hafter, hend⟩ := exists_trimEnd_eq (trimStart text)
  refine ⟨text.takeWhile isBlank, after, ?_, hafter, ?_⟩
  · intro c hc
    exact List.all_eq_true.1 List.all_takeWhile c hc
  · rw [List.append_assoc, trim, ← hend, trimStart, List.takeWhile_append_dropWhile]

/-- Trimming twice is trimming once. -/
theorem trim_trim (text : List Char) : trim (trim text) = trim text := by
  have hstart : trimStart (trim text) = trim text := by
    rw [trim]
    cases htext : trimStart text with
    | nil => rfl
    | cons c rest =>
      have hc : ¬isBlank c := by
        have hhead := List.head?_dropWhile_not isBlank text
        rw [← trimStart, htext] at hhead
        simpa using hhead
      rw [trimEnd_cons hc, trimStart, List.dropWhile_cons_of_neg hc]
  rw [trim, hstart, trim, trimEnd_trimEnd]

end SelectorLint.Text
