import Versioning.Text.Printable

/-! Texts as messages show them: between quotation marks, with escapes for the mark in use, the
backslash, and the characters that cannot be seen. -/

namespace Versioning.Text

/-- The digits of `n` in base 16, with zeros in front up to `width`. -/
def hexadecimal (width n : Nat) : List Char :=
  let digits := Nat.toDigits 16 n
  List.replicate (width - digits.length) '0' ++ digits

/-- The apostrophe, unless the text holds one and no double quotation mark. -/
def quotationMark (text : List Char) : Char :=
  if text.contains '\x27' && !text.contains '\x22' then '\x22' else '\x27'

/-- How a character stands between two of the given quotation marks. -/
def escape (mark c : Char) : List Char :=
  if c == mark || c == '\\' then ['\\', c]
  else if c == '\t' then ['\\', 't']
  else if c == '\n' then ['\\', 'n']
  else if c == '\r' then ['\\', 'r']
  else if isPrintable c then [c]
  else if c.toNat < 0x100 then '\\' :: 'x' :: hexadecimal 2 c.toNat
  else if c.toNat < 0x10000 then '\\' :: 'u' :: hexadecimal 4 c.toNat
  else '\\' :: 'U' :: hexadecimal 8 c.toNat

def quote (text : String) : String :=
  let mark := quotationMark text.toList
  String.ofList (mark :: text.toList.flatMap (escape mark) ++ [mark])

/-- The text between quotation marks, or `None` where there is no text. -/
def quote? : Option String → String
  | some text => quote text
  | none => "None"

end Versioning.Text
