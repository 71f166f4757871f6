import OutOfLine.Intent
import OutOfLine.Scope

/-! Command lines: the commands of the program and how arguments spell them. -/

namespace OutOfLine

/-- Where the declaration to parse comes from. -/
inductive ParseInput where
  | literal (text : Text)
  | line (file : Text) (number : Nat)
  | nothing
  deriving DecidableEq

inductive Command where
  /-- The scopes around a line. -/
  | scopes (file : Text) (line : Nat)
  /-- The declaration in a text or at a line. -/
  | parse (input : ParseInput)
  /-- The end of a scope. -/
  | boundary (file : Text) (frame : Frame)
  /-- The intents that apply at a line. -/
  | intents (file : Text) (line : Nat)
  /-- Carries out an intent at a line. -/
  | apply (intent : Intent) (file : Text) (line : Nat) (write : Bool)
  deriving DecidableEq

def Command.action : Command → String
  | scopes _ _ => "scopes"
  | parse _ => "parse"
  | boundary _ _ => "boundary"
  | intents _ _ => "intents"
  | apply _ _ _ _ => "apply"

/-- A command with the options that every command takes. -/
structure Invocation where
  command : Command
  json : Bool := false
  verbose : Bool := false
  quiet : Bool := false
  config : Option Text := none
  deriving DecidableEq

namespace CommandLine

/-- Why arguments give no command: they are wrong, or they ask about the program itself. -/
inductive Stop where
  | misuse
  | version
  | help
  deriving DecidableEq

inductive Opt where
  | verbose
  | quiet
  | config
  | json
  | line
  | text
  | kind
  | name
  | write
  deriving DecidableEq

/-- A line number: decimal digits after an optional plus sign, below 2^64. -/
def number? (text : Text) : Option Nat :=
  let digits : Text := match text with
    | '+' :: rest => rest
    | rest => rest
  let n := digits.foldl (fun n c => 10 * n + (c.toNat - '0'.toNat)) 0
  if digits ≠ [] ∧ digits.all Char.isDigit ∧ n < Nat.pow 2 64 then some n else none

def path? (text : Text) : Option Text := if text = [] then none else some text

namespace Opt

def long : Opt → Text
  | verbose => "verbose".toList
  | quiet => "quiet".toList
  | config => "config".toList
  | json => "json".toList
  | line => "line".toList
  | text => "text".toList
  | kind => "kind".toList
  | name => "name".toList
  | write => "write".toList

def takesValue : Opt → Bool
  | config => true
  | line => true
  | text => true
  | kind => true
  | name => true
  | _ => false

/-- The values that an option takes. -/
def accepts (opt : Opt) (value : Text) : Bool :=
  match opt with
  | config => (path? value).isSome
  | line => (number? value).isSome
  | kind => (ScopeKind.ofKeyword? value).isSome
  | _ => true

end Opt

/-- Options that stand before and after the name of a command. -/
def globalOpts : List Opt := [.verbose, .quiet, .config]

/-- The arguments read at one level: options with their values, and positional arguments. -/
structure Arguments where
  opts : List (Opt × Text) := []
  positionals : List Text := []
  deriving DecidableEq

namespace Arguments

def has (a : Arguments) (opt : Opt) : Bool := (a.opts.lookup opt).isSome

def value? (a : Arguments) (opt : Opt) : Option Text := a.opts.lookup opt

def line? (a : Arguments) : Option Nat := (a.value? .line).bind number?

/-- Adds an option, which may be given only once. -/
def add (a : Arguments) (opt : Opt) (value : Text) : Except Stop Arguments :=
  if a.has opt || !opt.accepts value then .error .misuse
  else .ok { a with opts := a.opts ++ [(opt, value)] }

def addPositional (a : Arguments) (value : Text) : Arguments :=
  { a with positionals := a.positionals ++ [value] }

end Arguments

/-- Whether an argument can be the value of the option before it. -/
def isValue (argument : Text) : Bool := argument.head? ≠ some '-' || argument = ['-']

/-- What an argument is. -/
inductive Shape where
  | separator
  /-- `--name` or `--name=value`. -/
  | long (name : Text) (value : Option Text)
  /-- A dash and letters. -/
  | short (letters : Text)
  | plain
  deriving DecidableEq

def shape (argument : Text) : Shape :=
  match argument with
  | ['-', '-'] => .separator
  | '-' :: '-' :: rest =>
    let name := rest.takeWhile (· ≠ '=')
    match rest.drop name.length with
    | '=' :: value => .long name (some value)
    | _ => .long name none
  | ['-'] => .plain
  | '-' :: letters => .short letters
  | _ => .plain

/-- The letters of a short argument. -/
def addShort (top : Bool) (a : Arguments) : Text → Except Stop Arguments
  | [] => .ok a
  | 'v' :: rest => do addShort top (← a.add .verbose []) rest
  | 'h' :: _ => .error .help
  | 'V' :: _ => .error (if top then .version else .misuse)
  | _ => .error .misuse

/-- What a long argument does: it is complete, or it still needs the next argument as value. -/
def addLong (top : Bool) (allowed : List Opt) (a : Arguments) (name : Text) (value : Option Text) :
    Except Stop (Arguments ⊕ Opt) :=
  match allowed.find? (fun opt => opt.long = name), value with
  | some opt, some value =>
    if opt.takesValue then (a.add opt value).map .inl else .error .misuse
  | some opt, none => if opt.takesValue then .ok (.inr opt) else (a.add opt []).map .inl
  | none, none =>
    if name = "help".toList then .error .help
    else if name = "version".toList ∧ top then .error .version
    else .error .misuse
  | none, some _ => .error .misuse

/-- Reads the arguments of a level. At the top level the first positional argument ends it, and the
arguments after that one are left over. -/
def readLevel (top : Bool) (allowed : List Opt) (a : Arguments) :
    List Text → Except Stop (Arguments × List Text)
  | [] => .ok (a, [])
  | argument :: rest =>
    match shape argument with
    | .separator =>
      if top then .error .misuse else .ok ({ a with positionals := a.positionals ++ rest }, [])
    | .long name value => do
      match ← addLong top allowed a name value, rest with
      | .inl a, rest => readLevel top allowed a rest
      | .inr opt, value :: rest =>
        if isValue value then readLevel top allowed (← a.add opt value) rest else .error .misuse
      | .inr _, [] => .error .misuse
    | .short letters => do readLevel top allowed (← addShort top a letters) rest
    | .plain =>
      if top then .ok (a.addPositional argument, rest)
      else readLevel top allowed (a.addPositional argument) rest

/-- The intents as they are spelled on the command line. -/
def intent? (text : Text) : Option Intent :=
  Intent.all.find? fun intent => intent.name.map (fun c => if c = '_' then '-' else c) = text

def scopes? (a : Arguments) : Option Command := do
  let [file] := a.positionals | none
  return .scopes (← path? file) (← a.line?)

def parse? (a : Arguments) : Option Command := do
  match a.positionals, a.value? .text, a.line? with
  | [], some text, _ => return .parse (.literal text)
  | [], none, _ => return .parse .nothing
  | [file], none, some line => return .parse (.line (← path? file) line)
  | _, _, _ => none

def boundary? (a : Arguments) : Option Command := do
  let [file] := a.positionals | none
  let kind ← (a.value? .kind).bind ScopeKind.ofKeyword?
  return .boundary (← path? file) ⟨kind, ← a.value? .name⟩

def intents? (a : Arguments) : Option Command := do
  let [file] := a.positionals | none
  return .intents (← path? file) (← a.line?)

def applyCommand? (a : Arguments) : Option Command := do
  let [intent, file] := a.positionals | none
  return .apply (← intent? intent) (← path? file) (← a.line?) (a.has .write)

/-- The commands: their names, their own options, and how to read them. -/
def commands : List (Text × List Opt × (Arguments → Option Command)) :=
  [("scopes".toList, [.line, .json], scopes?),
    ("parse".toList, [.line, .text, .json], parse?),
    ("boundary".toList, [.kind, .name, .json], boundary?),
    ("intents".toList, [.line, .json], intents?),
    ("apply".toList, [.line, .write, .json], applyCommand?)]

def helpName : Text := "help".toList

/-- Help is given on the program or on one command. -/
def readHelp : List Text → Stop
  | [] => .help
  | [name] => if name = helpName ∨ (commands.lookup name).isSome then .help else .misuse
  | _ => .misuse

/-- The commands and options in short. -/
def usage : String :=
  "Usage: cpp-toolkit [--verbose] [--quiet] [--config FILE] COMMAND\n\nCommands:\n" ++
    "  scopes FILE --line N [--json]\n" ++
    "  parse [FILE --line N | --text TEXT] [--json]\n" ++
    "  boundary FILE --kind KIND --name NAME [--json]\n" ++
    "  intents FILE --line N [--json]\n" ++
    "  apply INTENT FILE --line N [--write] [--json]\n"

def orMisuse {α : Type} (value : Option α) : Except Stop α := value.elim (.error .misuse) .ok

/-- Reads a whole command line. Of an option that stands on both levels the inner one counts. -/
def read (arguments : List Text) : Except Stop Invocation := do
  let (outer, rest) ← readLevel true globalOpts {} arguments
  let name ← orMisuse outer.positionals.head?
  if name = helpName then throw (readHelp rest)
  let (own, command?) ← orMisuse (commands.lookup name)
  let (inner, _) ← readLevel false (own ++ globalOpts) {} rest
  let command ← orMisuse (command? inner)
  return {
    command
    json := inner.has .json
    verbose := outer.has .verbose || inner.has .verbose
    quiet := outer.has .quiet || inner.has .quiet
    config := inner.value? .config <|> outer.value? .config }

end CommandLine

end OutOfLine
