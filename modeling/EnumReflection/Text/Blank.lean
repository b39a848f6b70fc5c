import EnumReflection.Text.Basic

/-!
# White space around a text

White space here is the Unicode property White_Space. It is used for quoting a text in a
message, not for reading declarations, whose blanks are a smaller ASCII set.
-/
namespace EnumReflection.Text

/-- The Unicode property White_Space. -/
def isWhite (c : Char) : Bool :=
  let n := c.toNat
  (9 ≤ n && n ≤ 13) || n == 0x20 || n == 0x85 || n == 0xA0 || n == 0x1680 ||
    (0x2000 ≤ n && n ≤ 0x200A) || n == 0x2028 || n == 0x2029 || n == 0x202F || n == 0x205F ||
    n == 0x3000

/-- The text without the white space at either end. -/
def trim (t : Text) : Text :=
  ((t.dropWhile isWhite).reverse.dropWhile isWhite).reverse

end EnumReflection.Text
