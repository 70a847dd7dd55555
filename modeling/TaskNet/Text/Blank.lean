/-!
White space in the wide sense: the ASCII blanks and every Unicode space separator, the line and
paragraph separators and the next-line control.
-/

namespace TaskNet.Text

def isBlank (c : Char) : Bool :=
  let n := c.toNat
  (9 ≤ n && n ≤ 13) || n == 0x20 || n == 0x85 || n == 0xA0 || n == 0x1680 ||
    (0x2000 ≤ n && n ≤ 0x200A) || n == 0x2028 || n == 0x2029 || n == 0x202F || n == 0x205F ||
    n == 0x3000

def isBlankLine (line : List Char) : Bool :=
  line.all isBlank

end TaskNet.Text
