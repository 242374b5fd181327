/-!
White space as the Unicode property `White_Space`, and text without it at the ends.
-/

namespace SourceAtlas.Blank

/-- The white-space characters of Unicode. -/
def isBlank (c : Char) : Bool :=
  let n := c.toNat
  (9 ≤ n && n ≤ 13) || n == 0x20 || n == 0x85 || n == 0xA0 || n == 0x1680 ||
    (0x2000 ≤ n && n ≤ 0x200A) || n == 0x2028 || n == 0x2029 || n == 0x202F ||
    n == 0x205F || n == 0x3000

def trimLeft (text : List Char) : List Char := text.dropWhile isBlank

def trimRight (text : List Char) : List Char := (text.reverse.dropWhile isBlank).reverse

def trim (text : String) : String := String.ofList (trimRight (trimLeft text.toList))

end SourceAtlas.Blank
