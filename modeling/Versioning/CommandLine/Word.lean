import Versioning.Text.Digit
import Versioning.Text.Split

/-! The words of a command line: which of them are options, and which are values. -/

namespace Versioning.CommandLine

open Text

inductive Flag where
  | help
  | logLevel
  | logFile
  | scheme
deriving DecidableEq

def Flag.name : Flag → String
  | help => "--help"
  | logLevel => "--log-level"
  | logFile => "--log-file"
  | scheme => "--scheme"

/-- What a word of a command line is. -/
inductive Word where
  | value
  /-- An option, and what is attached to it. -/
  | flag (flag : Flag) (attached : Option String)
  /-- A word in the form of an option that is none. -/
  | unknown
deriving DecidableEq

def dropLineFeed (text : List Char) : List Char :=
  if text.getLast? == some '\n' then text.dropLast else text

/-- Whether the text is a dash and a number, with a decimal point or without; a line feed may end
it. -/
def isNegativeNumber : List Char → Bool
  | '-' :: text =>
    match cutAt '.' (dropLineFeed text) with
    | (digits, none) => !digits.isEmpty && digits.all isDecimal
    | (whole, some fraction) =>
      whole.all isDecimal && !fraction.isEmpty && fraction.all isDecimal
  | _ => false

/-- What a word is that begins with a dash and names no option. -/
def Word.ofDashed (text : List Char) : Word :=
  if isNegativeNumber text || text.contains ' ' then .value else .unknown

/-- The option that a word with two dashes begins to name, if no other begins like that; what stands
after an equals sign is attached to it. -/
def Word.ofLong? (flags : List Flag) (text : List Char) : Option Word :=
  let (start, attached) := cutAt '=' text
  match flags.filter fun f => (dropStart? start f.name.toList).isSome with
  | [] => some (.ofDashed text)
  | [found] => some (.flag found (attached.map String.ofList))
  | _ => none

/-- Whether the text only repeats the letter of `-h`; an equals sign may stand in front of it. -/
def repeatsHelp : List Char → Bool
  | '=' :: rest => !rest.isEmpty && rest.all (· == 'h')
  | rest => rest.all (· == 'h')

/-- What the word is where the given options are known; `none` if it may name more than one.  The
short name `-h` of `--help` may be repeated in one word; anything else is attached to it. -/
def Word.of? (flags : List Flag) (word : String) : Option Word :=
  match word.toList with
  | '-' :: '-' :: rest => ofLong? flags ('-' :: '-' :: rest)
  | '-' :: 'h' :: rest =>
    some (.flag .help (if repeatsHelp rest then none else some (String.ofList rest)))
  | ['-'] => some .value
  | '-' :: rest => some (.ofDashed ('-' :: rest))
  | _ => some .value

end Versioning.CommandLine
