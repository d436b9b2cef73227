import Versioning.Error
import Versioning.Text.Blank
import Versioning.Text.Digit
import Versioning.Text.Split
import Versioning.Version.Basic

/-! Versions read from texts.  A text of the shape `N[.N][.N][-prerelease][+build]`, with digits of
any script, is read by that shape.  Any other text that starts with an ASCII digit and has a dot or
a dash is read by its dots and dashes alone. -/

namespace Versioning

namespace Components

def nonempty? (text : List Char) : Option String :=
  if text.isEmpty then none else some (String.ofList text)

/-- A number after a dot, if the text starts so, and the text after it. -/
def dottedNumber : List Char → Option Int × List Char
  | '.' :: text =>
    let digits := text.takeWhile Text.isDecimal
    if digits.isEmpty then (none, '.' :: text)
    else (some (Text.numeral digits), text.dropWhile Text.isDecimal)
  | text => (none, text)

/-- What stands between a dash and the next plus sign, if the text starts so, and the text after
it. -/
def dashedPart : List Char → Option String × List Char
  | '-' :: text =>
    let part := text.takeWhile (· != '+')
    if part.isEmpty then (none, '-' :: text)
    else (some (String.ofList part), text.dropWhile (· != '+'))
  | text => (none, text)

/-- What stands after a plus sign, or no build where the text has ended. -/
def buildPart? : List Char → Option (Option String)
  | [] => some none
  | '+' :: text => (nonempty? text).map some
  | _ => none

/-- The components of a text of the shape `N[.N][.N][-prerelease][+build]`. -/
def ofShape? (text : List Char) : Option Components :=
  let digits := text.takeWhile Text.isDecimal
  if digits.isEmpty then none
  else
    let (minor, rest) := dottedNumber (text.dropWhile Text.isDecimal)
    let (patch, rest) := dottedNumber rest
    let (prerelease, rest) := dashedPart rest
    (buildPart? rest).map fun build =>
      { major := Text.numeral digits, minor, patch, prerelease, build }

/-- The number in ASCII digits that the text starts with, zero if there is none. -/
def leadingNumber (text : List Char) : Nat := Text.numeral (text.takeWhile Char.isDigit)

/-- The patch number and the prerelease that the pieces after the second dot give: the prerelease
follows a dash in the first of them, or else is what follows that piece. -/
def looseTail : List (List Char) → Option Int × Option String
  | [] => (none, none)
  | piece :: rest =>
    let (number, suffix) := Text.cutAt '-' piece
    (some (leadingNumber number),
      (suffix.bind nonempty?).or (nonempty? (['.'].intercalate rest)))

/-- The components of a text that starts with an ASCII digit and has a dot or a dash: the leading
digits of each piece count, and a second piece with a dash gives no minor number. -/
def ofPieces? (text : List Char) : Option Components :=
  if !text.head?.any Char.isDigit then none
  else
    match text.splitOn '.' with
    | first :: second :: rest =>
      let (patch, prerelease) := looseTail rest
      some {
        major := leadingNumber first
        minor := if second.contains '-' then none else some (leadingNumber second)
        patch, prerelease }
    | _ =>
      match Text.cutAt '-' text with
      | (number, some suffix) =>
        some { major := leadingNumber number, prerelease := nonempty? suffix }
      | (_, none) => none

/-- The components of a text without white space, by its shape if it has that, else by its
pieces. -/
def ofText? (text : List Char) : Option Components :=
  if text.any Text.isBlank then none else (ofShape? text).or (ofPieces? text)

end Components

namespace Version

def parse (text : String) : Except FormatError Version :=
  match Components.ofText? text.toList with
  | some components => .ok { components with text }
  | none => .error (.version text)

/-- The version that the text shows; there is none where no text is given. -/
def parse? : Option String → Except FormatError Version
  | some text => parse text
  | none => .error (.version none)

def valid (text : String) : Bool := (parse text).isOk

end Version

end Versioning
