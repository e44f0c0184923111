/-!
# Blank characters

The characters with the Unicode property `White_Space` (`isBlank`), and trimming of texts by them (`trim`).
-/

namespace SelectorLint.Text

/-- The character has the Unicode property `White_Space`. -/
def isBlank (c : Char) : Bool :=
  let code := c.toNat
  (9 ≤ code && code ≤ 13) || code == 0x20 || code == 0x85 || code == 0xa0 || code == 0x1680
    || (0x2000 ≤ code && code ≤ 0x200a) || code == 0x2028 || code == 0x2029 || code == 0x202f
    || code == 0x205f || code == 0x3000

/-- The text without the blanks it starts with. -/
def trimStart (text : List Char) : List Char := text.dropWhile isBlank

/-- The text without the blanks it ends with. -/
def trimEnd (text : List Char) : List Char := (text.reverse.dropWhile isBlank).reverse

/-- The text without the blanks around it. -/
def trim (text : List Char) : List Char := trimEnd (trimStart text)

end SelectorLint.Text
