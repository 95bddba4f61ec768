/-!
# White space

The characters with the Unicode property White_Space, which dates count as blank. The document
formats themselves know only four blanks, all of them ASCII.
-/

set_option autoImplicit false

namespace DocWalk.Blank

/-- The characters with the property White_Space. -/
def isWhite (c : Char) : Bool :=
  let n := c.toNat
  (0x09 ≤ n && n ≤ 0x0D) || n = 0x20 || n = 0x85 || n = 0xA0 || n = 0x1680
    || (0x2000 ≤ n && n ≤ 0x200A) || n = 0x2028 || n = 0x2029 || n = 0x202F || n = 0x205F
    || n = 0x3000

/-- The characters from the first that is not white. -/
def trimStart (chars : List Char) : List Char :=
  chars.dropWhile isWhite

/-- The characters up to the last that is not white. -/
def trimEnd (chars : List Char) : List Char :=
  (chars.reverse.dropWhile isWhite).reverse

end DocWalk.Blank
