import Versioning.CommandLine.Word

/-! Commands read from the words of a command line: options of the program, the name of a command,
and the values and options of that command in any order.  After the word `--` all words are
values. -/

namespace Versioning.CommandLine

inductive Command where
  | parse (uri : String)
  | native (text scheme : String)
  | contains (range version : String) (scheme : Option String)
  | compare (a b : String)
  | normalize (version : String)
deriving DecidableEq

/-- Why there is no command to run. -/
inductive Halt where
  | help
  /-- The words make up no command. -/
  | usage
  /-- The command has an option without a value. -/
  | noValue
deriving DecidableEq

/-- The scheme of native ranges where none is given. -/
def defaultScheme : String := "generic"

def logLevels : List String := ["DEBUG", "INFO", "WARNING", "ERROR", "CRITICAL"]

/-- The word after which all others are values; attached to an option, it leaves that without a
value. -/
def separator : String := "--"

def programFlags : List Flag := [.help, .logLevel, .logFile]

structure Form where
  flags : List Flag
  values : Nat

def Form.ofName? : String → Option Form
  | "parse" => some ⟨[.help], 1⟩
  | "native" => some ⟨[.help, .scheme], 1⟩
  | "contains" => some ⟨[.help, .scheme], 2⟩
  | "compare" => some ⟨[.help], 2⟩
  | "normalize" => some ⟨[.help], 1⟩
  | _ => none

/-- The words read of a command so far. -/
structure Arguments where
  values : List String := []
  scheme : Option String := none
  /-- Whether the last word was taken as a value. -/
  endsInValue : Bool := false
  /-- Whether a word was found that the command does not take. -/
  surplus : Bool := false

/-- The words read in front of a command so far. -/
structure Preamble where
  logLevel : Option String := none
  logFile : Option String := none
  /-- Whether a word was found that the program does not take. -/
  surplus : Bool := false

/-- The words with one more option and its value; the last value of an option counts. -/
def Preamble.set (p : Preamble) (flag : Flag) (value : String) : Except Halt Preamble :=
  match flag with
  | .logLevel =>
    if value = separator || logLevels.contains value then .ok { p with logLevel := value }
    else .error .usage
  | .logFile => .ok { p with logFile := value }
  | _ => .error .usage

/-- Whether a word may be the value of an option in front of it. -/
def isValue (flags : List Flag) (word : String) : Bool := Word.of? flags word = some .value

/-- The words in front of a command, the name of the command, and the words after it. -/
def Preamble.read (p : Preamble) : List String → Except Halt (Preamble × String × List String)
  | [] => .error .usage
  | word :: rest =>
    match Word.of? programFlags word with
    | none => .error .usage
    | some .value => .ok (p, word, rest)
    | some .unknown => { p with surplus := true }.read rest
    | some (.flag .help attached) => .error (if attached.isSome then .usage else .help)
    | some (.flag flag (some value)) =>
      match p.set flag value with
      | .ok p => p.read rest
      | .error halt => .error halt
    | some (.flag flag none) =>
      match rest with
      | [] => .error .usage
      | value :: rest =>
        if isValue programFlags value then
          match p.set flag value with
          | .ok p => p.read rest
          | .error halt => .error halt
        else .error .usage

/-- The words of a command up to the word `--`. -/
def Form.read (form : Form) (arguments : Arguments) : List String → Except Halt Arguments
  | [] => .ok arguments
  | word :: rest =>
    let others := { arguments with endsInValue := false }
    match Word.of? form.flags word with
    | none => .error .usage
    | some .value =>
      if arguments.values.length < form.values then
        form.read { arguments with values := arguments.values ++ [word], endsInValue := true } rest
      else form.read { others with surplus := true } rest
    | some .unknown => form.read { others with surplus := true } rest
    | some (.flag .help attached) => .error (if attached.isSome then .usage else .help)
    | some (.flag _ (some value)) => form.read { others with scheme := value } rest
    | some (.flag _ none) =>
      match rest with
      | [] => .error .usage
      | value :: rest =>
        if isValue form.flags value then form.read { others with scheme := value } rest
        else .error .usage

/-- The values after the word `--`, which belongs to the value before it or else to the one after
it.  A second `--` that has no such word of its own stands for no value at all. -/
def trailingValues (endsInValue : Bool) : List String → List String
  | [] => []
  | first :: rest =>
    let value := fun word => if word = separator then "[]" else word
    (if endsInValue then value first else first) :: rest.map value

/-- The values of a command, from those up to the word `--` and those after it. -/
def Form.complete (form : Form) (arguments : Arguments) (trailing : Option (List String)) :
    Except Halt (List String) :=
  let later := trailing.getD []
  let stray := trailing.isSome && later.isEmpty && !arguments.endsInValue
  if arguments.surplus || stray || arguments.values.length + later.length ≠ form.values then
    .error .usage
  else .ok (arguments.values ++ trailingValues arguments.endsInValue later)

def Command.of (name : String) (values : List String) (scheme : Option String) :
    Except Halt Command :=
  match name, values with
  | "parse", [uri] => .ok (.parse uri)
  | "native", [text] => .ok (.native text (scheme.getD defaultScheme))
  | "contains", [range, version] => .ok (.contains range version scheme)
  | "compare", [a, b] => .ok (.compare a b)
  | "normalize", [version] => .ok (.normalize version)
  | _, _ => .error .usage

/-- The command that the words ask for.  A word that may name more than one option of the program is
refused wherever it stands. -/
def Command.read (words : List String) : Except Halt Command := do
  let leading := words.takeWhile (· != separator)
  let trailing := (words.dropWhile (· != separator)).tail?
  if leading.any fun word => (Word.of? programFlags word).isNone then throw .usage
  let (preamble, name, rest) ← Preamble.read {} leading
  match Form.ofName? name with
  | none => throw .usage
  | some form =>
    let arguments ← form.read {} rest
    let values ← form.complete arguments trailing
    if preamble.surplus then throw .usage
    if [preamble.logLevel, preamble.logFile, arguments.scheme].contains (some separator) then
      throw .noValue
    Command.of name values arguments.scheme

end Versioning.CommandLine
