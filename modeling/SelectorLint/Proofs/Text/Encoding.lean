import SelectorLint.Text.Bytes

/-!
# The bytes of a text

A text as the list of its bytes in UTF-8 (`bytes`). Its length is the byte length of the text, and its elements
are the bytes of the string (`getElem?_toUTF8`, `toList_toUTF8`).

A character below 128 takes one byte, and this byte is in no other character. So a text can be split where
such a byte stands (`exists_append_of_bytes`).

Texts that are in order by their characters are in order by their bytes (`bytesBefore_iff`): the bytes of a
smaller character are smaller in the first place where the two differ.
-/

namespace SelectorLint.Text

/-- The bytes that a text takes in UTF-8. -/
def bytes (text : List Char) : List UInt8 := text.flatMap String.utf8EncodeChar

theorem bytes_append (first second : List Char) : bytes (first ++ second) = bytes first ++ bytes second :=
  List.flatMap_append

theorem length_bytes (text : List Char) : (bytes text).length = byteLength text := by
  induction text with
  | nil => rfl
  | cons c rest ih =>
    rw [← List.singleton_append, bytes_append, List.length_append, ih, byteLength_append]
    simp [bytes]

theorem toList_data_toUTF8 (text : String) : text.toUTF8.data.toList = bytes text.toList := by
  have htext : (String.ofList text.toList).toUTF8.data.toList = bytes text.toList := by
    rw [String.toUTF8_eq_toByteArray, String.toByteArray_ofList, List.utf8Encode, List.data_toByteArray, bytes]
  rwa [String.ofList_toList] at htext

theorem getElem?_toUTF8 (text : String) (index : Nat) : text.toUTF8[index]? = (bytes text.toList)[index]? := by
  rw [← toList_data_toUTF8, Array.getElem?_toList]
  rfl

theorem toList_loop (array : ByteArray) (index : Nat) (before : List UInt8) :
    ByteArray.toList.loop array index before = before.reverse ++ array.data.toList.drop index := by
  fun_induction ByteArray.toList.loop array index before with
  | case1 index before hlt ih =>
    have hlength : index < array.data.toList.length := hlt
    have hbyte : array.get! index = array.data.toList[index] := by
      show array.data[index]! = _
      rw [getElem!_pos array.data index hlt, Array.getElem_toList]
    rw [ih, List.drop_eq_getElem_cons hlength, List.reverse_cons, hbyte, List.append_assoc,
      List.singleton_append]
  | case2 index before hge =>
    have hlength : array.data.toList.length ≤ index := Nat.le_of_not_lt hge
    rw [List.drop_eq_nil_of_le hlength, List.append_nil]

theorem toList_toUTF8 (text : String) : text.toUTF8.toList = bytes text.toList := by
  rw [ByteArray.toList, toList_loop, List.drop_zero]
  exact toList_data_toUTF8 text

/-- A text is known by its bytes. -/
theorem bytes_inj {first second : List Char} (h : bytes first = bytes second) : first = second := by
  have hdata : (String.ofList first).toUTF8.data.toList = (String.ofList second).toUTF8.data.toList := by
    rwa [toList_data_toUTF8, toList_data_toUTF8, String.toList_ofList, String.toList_ofList]
  have htexts : String.ofList first = String.ofList second :=
    String.toByteArray_inj.1 (ByteArray.ext (Array.toList_inj.1 hdata))
  exact String.ofList_injective htexts

/-! ## Characters of one byte -/

/-- A byte below 128 stands for the character with its number, and is in no other. -/
theorem toNat_eq_of_mem_utf8EncodeChar {c : Char} {byte : UInt8} (hascii : byte.toNat < 128)
    (h : byte ∈ String.utf8EncodeChar c) : c.toNat = byte.toNat := by
  have hbyte : ∀ value, byte = UInt8.ofNat value → value % 256 = byte.toNat := by
    intro value heq
    rw [heq, UInt8.toNat_ofNat']
  unfold String.utf8EncodeChar at h
  dsimp only at h
  split at h
  next hsmall =>
    have hvalue := hbyte _ (List.mem_singleton.1 h)
    rwa [Nat.mod_eq_of_lt (by omega)] at hvalue
  -- a longer character has only bytes of 128 and more
  exfalso
  split at h
  · simp only [List.mem_cons, List.not_mem_nil, or_false] at h
    rcases h with heq | heq
    all_goals
      have hvalue := hbyte _ heq
      omega
  split at h
  · simp only [List.mem_cons, List.not_mem_nil, or_false] at h
    rcases h with heq | heq | heq
    all_goals
      have hvalue := hbyte _ heq
      omega
  · simp only [List.mem_cons, List.not_mem_nil, or_false] at h
    rcases h with heq | heq | heq | heq
    all_goals
      have hvalue := hbyte _ heq
      omega

theorem eq_lineFeed_of_mem_utf8EncodeChar {c : Char} (h : 10 ∈ String.utf8EncodeChar c) : c = '\n' :=
  Char.ext (UInt32.toNat_inj.1 (toNat_eq_of_mem_utf8EncodeChar (by decide) h))

theorem utf8EncodeChar_of_lt {c : Char} (h : c.toNat < 128) :
    String.utf8EncodeChar c = [UInt8.ofNat c.toNat] := by
  have hsmall : c.val.toNat ≤ 0x7f := Nat.le_of_lt_succ h
  unfold String.utf8EncodeChar
  dsimp only
  rw [if_pos hsmall]
  rfl

/-- Where the byte of a character of one byte stands among the bytes of a text, the character stands in the
text. -/
theorem exists_append_of_bytes {c : Char} (hc : c.toNat < 128) {text : List Char} {front back : List UInt8}
    (h : bytes text = front ++ UInt8.ofNat c.toNat :: back) :
    ∃ before after, text = before ++ c :: after ∧ bytes before = front ∧ bytes after = back := by
  induction text generalizing front with
  | nil => simp [bytes] at h
  | cons first rest ih =>
    have hsplit : String.utf8EncodeChar first ++ bytes rest = front ++ UInt8.ofNat c.toNat :: back := h
    rcases List.append_eq_append_iff.1 hsplit with ⟨more, rfl, hrest⟩ | ⟨more, hfirst, hrest⟩
    · obtain ⟨before, after, rfl, rfl, rfl⟩ := ih hrest
      exact ⟨first :: before, after, rfl, rfl, rfl⟩
    · cases more with
      | nil =>
        have hnone : bytes rest = [] ++ UInt8.ofNat c.toNat :: back := hrest.symm
        obtain ⟨before, after, rfl, hbefore, rfl⟩ := ih hnone
        refine ⟨first :: before, after, rfl, ?_, rfl⟩
        rw [List.append_nil] at hfirst
        rw [← hfirst, ← List.append_nil (String.utf8EncodeChar first), ← hbefore]
        rfl
      | cons byte more =>
        obtain ⟨rfl, hmore⟩ := List.cons.inj hrest
        have hbyte : (UInt8.ofNat c.toNat).toNat = c.toNat := by
          rw [UInt8.toNat_ofNat', Nat.mod_eq_of_lt (by omega)]
        have hmem : UInt8.ofNat c.toNat ∈ String.utf8EncodeChar first := by simp [hfirst]
        have hvalue := toNat_eq_of_mem_utf8EncodeChar (by omega) hmem
        obtain rfl : first = c := Char.ext (UInt32.toNat_inj.1 (hvalue.trans hbyte))
        rw [utf8EncodeChar_of_lt hc] at hfirst
        have hcases := List.append_eq_singleton_iff.1 hfirst.symm
        obtain ⟨rfl, hcons⟩ := hcases.resolve_right (by simp)
        obtain rfl := (List.cons.inj hcons).2
        exact ⟨[], rest, rfl, rfl, hmore.symm⟩

/-! ## The order of bytes -/

/-- The lists differ in some place that both have, and the first list has the smaller byte in the first such
place. -/
def LessWithin : List UInt8 → List UInt8 → Prop
  | byte :: first, other :: second => byte < other ∨ byte = other ∧ LessWithin first second
  | _, _ => False

theorem LessWithin.lex {first second : List UInt8} (h : LessWithin first second) (front back : List UInt8) :
    List.Lex (· < ·) (first ++ front) (second ++ back) := by
  induction first generalizing second with
  | nil => exact h.elim
  | cons byte first ih =>
    cases second with
    | nil => exact h.elim
    | cons other second =>
      rcases h with hlt | ⟨rfl, hrest⟩
      · exact .rel hlt
      · exact .cons (ih hrest)

/-- The smaller of two characters has the smaller bytes. -/
theorem lessWithin_utf8EncodeChar {c d : Char} (h : c < d) :
    LessWithin (String.utf8EncodeChar c) (String.utf8EncodeChar d) := by
  have hvalid : d.val.toNat < 0x110000 := by
    have hscalar := d.valid
    simp only [UInt32.isValidChar, Nat.isValidChar] at hscalar
    omega
  have hlt : c.val.toNat < d.val.toNat := h
  unfold String.utf8EncodeChar
  generalize c.val.toNat = first at hlt ⊢
  generalize d.val.toNat = second at hlt hvalid ⊢
  -- each byte but the first holds six bits, and of two numbers the smaller one has the smaller bits where the
  -- first groups of six differ
  have hlow : first / 64 < second / 64 ∨ first / 64 = second / 64 ∧ first % 64 < second % 64 := by omega
  have hmiddle : first / 64 < second / 64 → first / 4096 < second / 4096 ∨
      first / 4096 = second / 4096 ∧ first / 64 % 64 < second / 64 % 64 := by omega
  have hhigh : first / 4096 < second / 4096 → first / 262144 < second / 262144 ∨
      first / 262144 = second / 262144 ∧ first / 4096 % 64 < second / 4096 % 64 := by omega
  dsimp only
  repeat' split
  all_goals
    simp (disch := omega) only [LessWithin, UInt8.lt_iff_toNat_lt, ← UInt8.toNat_inj, UInt8.toNat_ofNat',
      Nat.mod_eq_of_lt]
    omega

/-- The bytes of the first text come before those of the second in the order of words in a dictionary. -/
def BytesBefore (first second : List Char) : Prop := List.Lex (· < ·) (bytes first) (bytes second)

theorem bytesBefore_of_lex {first second : List Char} (h : List.Lex (· < ·) first second) :
    BytesBefore first second := by
  induction h with
  | @nil c rest =>
    have hpos : 0 < (bytes (c :: rest)).length := by
      rw [length_bytes]
      exact byteLength_pos (by simp)
    obtain ⟨byte, more, hbytes⟩ := List.exists_cons_of_length_pos hpos
    unfold BytesBefore
    rw [hbytes]
    exact .nil
  | rel hlt => exact (lessWithin_utf8EncodeChar hlt).lex _ _
  | cons _ ih => exact List.append_left_lt ih

theorem BytesBefore.asymm {first second : List Char} (h : BytesBefore first second) :
    ¬BytesBefore second first :=
  List.lt_asymm h

/-- The order of the bytes is the order of the characters. -/
theorem bytesBefore_iff {first second : List Char} :
    BytesBefore first second ↔ List.Lex (· < ·) first second := by
  constructor
  · intro hbytes
    have hback : ¬List.Lex (· < ·) second first := fun hlex => hbytes.asymm (bytesBefore_of_lex hlex)
    rcases List.le_iff_lt_or_eq.1 hback with hlt | rfl
    · exact hlt
    · exact absurd hbytes hbytes.asymm
  · exact bytesBefore_of_lex

end SelectorLint.Text
