/-!
# Lengths of texts in bytes

Offsets in this library count bytes of the UTF-8 form of a text, while the readers work on lists of
characters. `byteLength` is the bridge: the offset of a character is the byte length of what stands
before it.
-/

namespace SelectorLint.Text

/-- The number of bytes that a text takes in UTF-8. -/
def byteLength : List Char → Nat
  | [] => 0
  | c :: rest => c.utf8Size + byteLength rest

@[simp] theorem byteLength_nil : byteLength [] = 0 := rfl

@[simp] theorem byteLength_cons (c : Char) (rest : List Char) :
    byteLength (c :: rest) = c.utf8Size + byteLength rest := rfl

@[simp] theorem byteLength_append (first second : List Char) :
    byteLength (first ++ second) = byteLength first + byteLength second := by
  induction first with
  | nil => simp
  | cons c rest ih => simp [ih, Nat.add_assoc]

theorem byteLength_pos {text : List Char} (h : text ≠ []) : 0 < byteLength text := by
  obtain ⟨c, rest, rfl⟩ := List.exists_cons_of_ne_nil h
  have hpos := c.utf8Size_pos
  rw [byteLength_cons]
  omega

/-- Two fronts of one text are the same if they have the same length. -/
theorem eq_of_byteLength_eq {front front' back back' : List Char} (h : front ++ back = front' ++ back')
    (hlength : byteLength front = byteLength front') : front = front' := by
  rcases List.append_eq_append_iff.1 h with ⟨more, rfl, -⟩ | ⟨more, rfl, -⟩
  all_goals
    rw [byteLength_append] at hlength
    cases more with
    | nil => rw [List.append_nil]
    | cons c more =>
      have hpos := c.utf8Size_pos
      rw [byteLength_cons] at hlength
      omega

end SelectorLint.Text
