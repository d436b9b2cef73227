import Versioning.Native.Specifier

/-! The grammar of clauses whose versions are of the shape `[v][N!]N(.N)*[pre][post][dev][+local]`,
where each tag may follow a separator, digits are those of ASCII, and so are letters but for their
case. -/

namespace Versioning.Pep440

open Text Specifier

/-- The letter in lower case.  Where case is ignored, four characters outside ASCII are letters of
it. -/
def lower (c : Char) : Char :=
  match c with
  | 'İ' | 'ı' => 'i'
  | 'ſ' => 's'
  | '\u212a' => 'k'
  | _ => c.toLower

/-- Whether the character may stand between a tag and its neighbours. -/
def isSeparator (c : Char) : Bool := c == '-' || c == '_' || c == '.'

def dropSeparator : List Char → List Char
  | [] => []
  | c :: rest => if isSeparator c then rest else c :: rest

def dropMark : List Char → List Char
  | 'v' :: rest => rest
  | text => text

/-- The text without a number and an exclamation mark in front. -/
def dropEpoch (text : List Char) : List Char :=
  match text.dropWhile Char.isDigit with
  | '!' :: rest => if text.head?.any Char.isDigit then rest else text
  | _ => text

/-- The text after the digits, and dots in front of digits, that it starts with. -/
def dropNumbers : List Char → List Char
  | [] => []
  | c :: rest =>
    if c.isDigit || (c == '.' && rest.head?.any Char.isDigit) then dropNumbers rest else c :: rest

def startsWithTwoNumbers (text : List Char) : Bool :=
  match text.dropWhile Char.isDigit with
  | '.' :: rest => text.head?.any Char.isDigit && rest.head?.any Char.isDigit
  | _ => false

/-- The text without one of the tags in front, and the number that may follow it. -/
def dropTag (tags : List String) (text : List Char) : List Char :=
  match tags.findSome? fun tag => dropStart? tag.toList (dropSeparator text) with
  | some rest => (dropSeparator rest).dropWhile Char.isDigit
  | none => text

def dropPrerelease : List Char → List Char :=
  dropTag ["alpha", "beta", "preview", "pre", "rc", "a", "b", "c"]

/-- The text without the tag of a later release in front, which may be a dash and a number. -/
def dropPostrelease (text : List Char) : List Char :=
  match text with
  | '-' :: digit :: rest =>
    if digit.isDigit then rest.dropWhile Char.isDigit else dropTag ["post", "rev", "r"] text
  | _ => dropTag ["post", "rev", "r"] text

def dropTags (text : List Char) : List Char :=
  dropTag ["dev"] (dropPostrelease (dropPrerelease text))

/-- Whether the text is a plus sign and a local version. -/
def isLocal : List Char → Bool
  | '+' :: rest =>
    (rest.splitOnP isSeparator).all fun piece => !piece.isEmpty && piece.all Char.isAlphanum
  | _ => false

/-- Whether the text is a version that may stand behind the operator. -/
def fits (operator : String) (text : List Char) : Bool :=
  if operator == "===" then text.all fun c => !isBlank c && c != ';' && c != ')'
  else
    let numbers := dropEpoch (dropMark (text.map lower))
    let tail := dropNumbers numbers
    let rest := dropTags tail
    numbers.head?.any Char.isDigit &&
      match operator with
      | "~=" => startsWithTwoNumbers numbers && rest.isEmpty
      | "==" | "!=" => tail == ['.', '*'] || rest.isEmpty || isLocal rest
      | _ => rest.isEmpty

/-- Blanks around the clause and behind the operator do not count. -/
instance reader : Specifier.Reader where
  ofClause? clause := (split? (strip clause)).filter fun s => fits s.operator s.version

end Versioning.Pep440
