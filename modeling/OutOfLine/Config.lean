import OutOfLine.Text

/-! Configuration of generated text and of file pairing. -/

namespace OutOfLine

structure Config where
  /-- Stands between the names of enclosing scopes. -/
  scopeSeparator : Text := "::".toList
  /-- Indents the empty line of a generated body. -/
  bodyIndent : Text := "    ".toList
  /-- Stands before a generated definition. -/
  definitionSpacing : Text := "\n\n".toList
  /-- Extensions of headers, without the dot. -/
  headerExtensions : List Text := ["h".toList, "hpp".toList, "hh".toList, "hxx".toList]
  /-- Extensions of sources, without the dot. -/
  sourceExtensions : List Text := ["cpp".toList, "cc".toList, "cxx".toList]
  /-- How many lines a statement may take. -/
  maxStatementLines : Nat := 32
  deriving DecidableEq

/-- Equality of texts up to the case of ASCII letters. -/
def Text.sameLetters (a b : Text) : Bool := a.map Char.toLower == b.map Char.toLower

namespace Config

/-- What is wrong with a configuration. -/
inductive Fault where
  | emptySeparator
  | noHeaderExtensions
  | noSourceExtensions
  | sharedExtension (extension : Text)
  | noStatementLines
  deriving DecidableEq

def Fault.message : Fault → String
  | emptySeparator => "scope_separator must not be empty"
  | noHeaderExtensions => "header_extensions must list at least one extension"
  | noSourceExtensions => "source_extensions must list at least one extension"
  | sharedExtension extension =>
    "extension '" ++ String.ofList extension ++
      "' cannot be both a header and a source extension"
  | noStatementLines => "max_statement_lines must be > 0"

/-- The first header extension that is also a source extension. -/
def sharedExtension? (config : Config) : Option Text :=
  config.headerExtensions.find? fun extension =>
    config.sourceExtensions.any (Text.sameLetters extension)

/-- The first fault, in the order of the cases. -/
def fault? (config : Config) : Option Fault :=
  if config.scopeSeparator.isEmpty then some .emptySeparator
  else if config.headerExtensions.isEmpty then some .noHeaderExtensions
  else if config.sourceExtensions.isEmpty then some .noSourceExtensions
  else match config.sharedExtension? with
    | some extension => some (.sharedExtension extension)
    | none => if config.maxStatementLines = 0 then some .noStatementLines else none

/-- The body of a definition that has none yet. -/
def emptyBody (config : Config) : Text := ['{', '\n'] ++ config.bodyIndent ++ ['\n', '}']

end Config

end OutOfLine
