import LetPoly.Text.Printable

/-!
# Quoted text

Text in double quotes, for messages and for log lines. A quote and a backslash are written after a
backslash, printable characters as they are, and everything else as an escape: a letter where there
is one (`\n`), else the code point in hexadecimal (`\x00`, `\u200b`, `\U000e0001`).

## Main definitions

* `Text.escapeChar`: how one character is written between quotes.
* `Text.quote`: a text in quotes.
* `Text.needsQuotes`, `Text.quoteIfNeeded`: quotes around texts that would be hard to tell apart
  from their surroundings in a line of keys and values.
-/

namespace LetPoly.Text

/-- A number in hexadecimal with at least `width` digits. -/
def hex (width n : Nat) : String :=
  let digits := Nat.toDigits 16 n
  String.ofList (List.replicate (width - digits.length) '0' ++ digits)

/-- One character as it is written between quotes. -/
def escapeChar (c : Char) : String :=
  if c = '"' then "\\\""
  else if c = '\\' then "\\\\"
  else if isPrintable c then c.toString
  else if c.toNat = 0x7 then "\\a"
  else if c.toNat = 0x8 then "\\b"
  else if c.toNat = 0xc then "\\f"
  else if c = '\n' then "\\n"
  else if c = '\r' then "\\r"
  else if c = '\t' then "\\t"
  else if c.toNat = 0xb then "\\v"
  else if c.toNat < 0x20 || c.toNat = 0x7f then "\\x" ++ hex 2 c.toNat
  else if c.toNat < 0x10000 then "\\u" ++ hex 4 c.toNat
  else "\\U" ++ hex 8 c.toNat

/-- The text in double quotes. -/
def quote (s : String) : String :=
  "\"" ++ String.join (s.toList.map escapeChar) ++ "\""

/-- Must this character stand between quotes? Blanks, quotes, equals signs and controls must, and
beyond ASCII so must everything that is not printable, and the replacement character. -/
def forcesQuotes (c : Char) : Bool :=
  if c.toNat < 0x80 then c = ' ' || c = '=' || c = '"' || c.toNat < 0x20
  else isBlank c || !isPrintable c || c.toNat = 0xfffd

/-- Must this text stand between quotes? The empty text must too. -/
def needsQuotes (s : String) : Bool :=
  s.isEmpty || s.toList.any forcesQuotes

/-- The text, in quotes if it needs them. -/
def quoteIfNeeded (s : String) : String :=
  if needsQuotes s then quote s else s

end LetPoly.Text
