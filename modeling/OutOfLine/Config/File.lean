import OutOfLine.Config

/-! Configuration files: a table of fields, of which some are settings. How the text of a file is read
as a table is left open; which fields are settings, and what they have to hold, is said here. -/

namespace OutOfLine

namespace ConfigFile

/-- A value of a field. -/
inductive Value where
  | text (value : Text)
  | integer (value : Int)
  | boolean (value : Bool)
  | list (items : List Value)
  /-- A number with a fraction, a date or a table: no setting holds one. -/
  | other

/-- Reads the text of a file as a table. Nothing is assumed of a reader, in what it accepts or in the
fields that it finds. -/
abbrev Reader := Text → Option (List (Text × Value))

def textOf : Value → Option Text
  | .text t => some t
  | _ => none

def textsOf : Value → Option (List Text)
  | .list items => items.mapM textOf
  | _ => none

def natOf : Value → Option Nat
  | .integer n => if 0 ≤ n then some n.toNat else none
  | _ => none

/-- The setting of a key, or the default if the key is missing. -/
def setting {α : Type} (fields : List (Text × Value)) (key : String) (read : Value → Option α)
    (default : α) : Option α :=
  match fields.lookup key.toList with
  | some value => read value
  | none => some default

/-- The configuration that fields describe. Fields that are no settings are passed over. -/
def ofFields (fields : List (Text × Value)) : Option Config := do
  let d : Config := {}
  return {
    scopeSeparator := ← setting fields "scope_separator" textOf d.scopeSeparator
    bodyIndent := ← setting fields "body_indent" textOf d.bodyIndent
    definitionSpacing := ← setting fields "definition_spacing" textOf d.definitionSpacing
    headerExtensions := ← setting fields "header_extensions" textsOf d.headerExtensions
    sourceExtensions := ← setting fields "source_extensions" textsOf d.sourceExtensions
    maxStatementLines := ← setting fields "max_statement_lines" natOf d.maxStatementLines }

/-- Reads a configuration file. -/
def parse (read : Reader) (text : Text) : Option Config := (read text).bind ofFields

end ConfigFile

end OutOfLine
