/-!
# ChunkedArray.Text.Blank

Blank characters: the code points with the Unicode property White_Space. Text
read from outside is trimmed of them on both sides.
-/

namespace ChunkedArray

/-- Has the character the Unicode property White_Space? -/
def isBlank (c : Char) : Bool :=
  let code := c.toNat
  (9 ≤ code && code ≤ 13) || code == 32 || code == 0x85 || code == 0xA0 || code == 0x1680
    || (0x2000 ≤ code && code ≤ 0x200A) || code == 0x2028 || code == 0x2029
    || code == 0x202F || code == 0x205F || code == 0x3000

/-- The text without the blanks at its two ends. -/
def trimBlanks (text : List Char) : List Char :=
  ((text.dropWhile isBlank).reverse.dropWhile isBlank).reverse

example : trimBlanks ['\t', ' ', 'a', ' ', 'b', '\n'] = ['a', ' ', 'b'] := by decide

end ChunkedArray
