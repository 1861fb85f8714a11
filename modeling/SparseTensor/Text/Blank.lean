/-
# White space

The characters with the Unicode property `White_Space`, and the two ways in which text is cut
at them: `trim` removes them at both ends, `words` returns the runs between them.
-/

namespace SparseTensor.Text

/-- A character with the property `White_Space`. -/
def isBlank (c : Char) : Bool :=
  let n := c.toNat
  (9 ≤ n && n ≤ 13) || n == 32 || n == 0x85 || n == 0xA0 || n == 0x1680 ||
    (0x2000 ≤ n && n ≤ 0x200A) || n == 0x2028 || n == 0x2029 || n == 0x202F || n == 0x205F ||
    n == 0x3000

/-- The blanks between the parts of structured text: the space, the tab and the line ends. -/
def isBlankByte (b : UInt8) : Bool :=
  b == 0x20 || b == 0x09 || b == 0x0A || b == 0x0D

/-- A text without the white space at its ends. -/
def trim (s : List Char) : List Char :=
  ((s.dropWhile isBlank).reverse.dropWhile isBlank).reverse

/-- The runs of characters between white space, none of them empty. -/
def words (s : List Char) : List (List Char) :=
  (s.splitOnP isBlank).filter fun run => !run.isEmpty

example : trim " \u3000a b\r\n".toList = "a b".toList := by decide

example : words " a  bc\u00a0d ".toList = ["a".toList, "bc".toList, "d".toList] := by decide

example : isBlank '\u200b' = false ∧ isBlank '\ufeff' = false ∧ isBlank '\x1c' = false := by decide

end SparseTensor.Text
