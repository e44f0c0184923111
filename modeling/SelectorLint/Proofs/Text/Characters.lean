import SelectorLint.Text.Alphanumeric
import SelectorLint.Text.Blank

/-!
# Classes of characters

What the tables of Unicode characters have to do with each other. The tables are gone through once here;
other proofs use these facts and leave the tables closed. The text of a number has only digits.
-/

namespace SelectorLint.Text

/-- Beyond the table, which starts after ASCII, there are only letters and digits. -/
theorem isAlphanumeric_of_lt {c : Char} (h : c.toNat < 128) : isAlphanumeric c = c.isAlphanum := by
  have hall : alphanumericRanges.all fun range => Nat.ble 128 range.1 := by decide +kernel
  have hnone : (alphanumericRanges.any fun range =>
      range.1 ≤ c.toNat && c.toNat ≤ range.2) = false := by
    rw [List.any_eq_false]
    intro range hrange hin
    have hlow : 128 ≤ range.1 := Nat.le_of_ble_eq_true (List.all_eq_true.1 hall range hrange)
    simp only [Bool.and_eq_true, decide_eq_true_eq] at hin
    omega
  rw [isAlphanumeric, hnone, Bool.or_false]

/-- First and last code point of each run of white space. -/
def blankRanges : List (Nat × Nat) :=
  [(9, 13), (0x20, 0x20), (0x85, 0x85), (0xa0, 0xa0), (0x1680, 0x1680), (0x2000, 0x200a),
   (0x2028, 0x2029), (0x202f, 0x202f), (0x205f, 0x205f), (0x3000, 0x3000)]

theorem exists_range_of_isBlank {c : Char} (h : isBlank c) :
    ∃ range ∈ blankRanges, range.1 ≤ c.toNat ∧ c.toNat ≤ range.2 := by
  have hsome : blankRanges.any fun range => range.1 ≤ c.toNat && c.toNat ≤ range.2 := by
    simp only [isBlank, Bool.or_eq_true, Bool.and_eq_true, decide_eq_true_eq, beq_iff_eq] at h
    simp only [blankRanges, List.any_cons, List.any_nil, Bool.or_eq_true, Bool.and_eq_true,
      decide_eq_true_eq, Bool.or_false]
    omega
  simpa using hsome

theorem not_isAlphanum_of_isBlank {c : Char} (h : isBlank c) : ¬c.isAlphanum := by
  intro hascii
  have hranges : (decide ('A'.val ≤ c.val ∧ c.val ≤ 'Z'.val) ||
      ('a'.val ≤ c.val && c.val ≤ 'z'.val) || ('0'.val ≤ c.val && c.val ≤ '9'.val)) = true := hascii
  simp only [Bool.or_eq_true, Bool.and_eq_true, decide_eq_true_eq,
    UInt32.le_iff_toNat_le, Char.reduceVal, UInt32.reduceToNat] at hranges
  simp only [isBlank, Bool.or_eq_true, Bool.and_eq_true, decide_eq_true_eq, beq_iff_eq] at h
  have hval : c.val.toNat = c.toNat := rfl
  rw [hval] at hranges
  omega

/-- White space is not alphanumeric. -/
theorem not_isAlphanumeric_of_isBlank {c : Char} (h : isBlank c) : ¬isAlphanumeric c := by
  have hall : alphanumericRanges.all fun range => blankRanges.all fun blank =>
      Nat.blt range.2 blank.1 || Nat.blt blank.2 range.1 := by decide +kernel
  intro halphanumeric
  rw [isAlphanumeric, Bool.or_eq_true, List.any_eq_true] at halphanumeric
  rcases halphanumeric with hascii | ⟨range, hrange, hin⟩
  · exact not_isAlphanum_of_isBlank h hascii
  · obtain ⟨blank, hblank, hlow, hhigh⟩ := exists_range_of_isBlank h
    have hapart := List.all_eq_true.1 (List.all_eq_true.1 hall range hrange) blank hblank
    simp only [Bool.or_eq_true, Nat.blt_eq] at hapart
    simp only [Bool.and_eq_true, decide_eq_true_eq] at hin
    omega

/-! ## Numbers -/

theorem toList_toString (n : Nat) : (toString n).toList = Nat.toDigits 10 n := by
  rw [Nat.toString_eq_ofList_toDigits, String.toList_ofList]

theorem isDigit_of_mem_toDigits {n : Nat} {c : Char} (h : c ∈ Nat.toDigits 10 n) : c.isDigit :=
  Nat.isDigit_of_mem_toDigits (by decide) (by decide) h

end SelectorLint.Text
