/-!
White space at the ends of a text.
-/

namespace UtxoLedger.Text

/-- Whether a character is white space by the Unicode property of that name. -/
def isBlank (c : Char) : Bool :=
  let n := c.toNat
  (0x09 ≤ n && n ≤ 0x0d) || n == 0x20 || n == 0x85 || n == 0xa0 || n == 0x1680
    || (0x2000 ≤ n && n ≤ 0x200a) || n == 0x2028 || n == 0x2029 || n == 0x202f || n == 0x205f
    || n == 0x3000

/-- The text without white space at its ends. -/
def trim (text : String) : String :=
  let front := text.toList.dropWhile isBlank
  String.ofList (front.reverse.dropWhile isBlank).reverse

end UtxoLedger.Text
