/-!
Characters as they are quoted in messages: between apostrophes, with escapes for the apostrophe, the
backslash and everything that does not print.
-/

namespace UtxoLedger.Text

/-- Whether a character below `U+0100` has a visible form or is the plain space. -/
def isPrintable (c : Char) : Bool :=
  let n := c.toNat
  (0x20 ≤ n && n < 0x7f) || (0xa0 < n && n != 0xad)

/-- The lowercase hexadecimal digits of `n`, without leading zeros. -/
def hexDigits (n : Nat) : String :=
  String.ofList (Nat.toDigits 16 n)

/-- A character below `U+0100` between apostrophes; what does not print is written by its code. -/
def quoteChar (c : Char) : String :=
  if c == '\x00' then "'\\0'"
  else if c == '\t' then "'\\t'"
  else if c == '\n' then "'\\n'"
  else if c == '\r' then "'\\r'"
  else if c == '\'' then "'\\''"
  else if c == '\\' then "'\\\\'"
  else if isPrintable c then "'" ++ c.toString ++ "'"
  else "'\\u\x7b" ++ hexDigits c.toNat ++ "\x7d'"

/-- `n` in hexadecimal behind `0x`, padded with zeros to `width` digits. -/
def hexLiteral (width n : Nat) : String :=
  let digits := Nat.toDigits 16 n
  "0x" ++ String.ofList (List.replicate (width - digits.length) '0' ++ digits)

end UtxoLedger.Text
