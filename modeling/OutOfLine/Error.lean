import OutOfLine.Declaration
import OutOfLine.Document
import OutOfLine.Intent

/-! What can go wrong when the library is used. Malformed code is no error. -/

namespace OutOfLine

/-- Why an intent has no plan. -/
inductive Refusal where
  | notOffered (role : FileRole)
  /-- There is no fitting declaration at the line of this number. -/
  | noDeclaration (line : Nat)
  deriving DecidableEq

def Refusal.message : Refusal → String
  | notOffered role => "not offered in a " ++ role.name ++ " file"
  | noDeclaration line => "no applicable declaration at line " ++ toString line

inductive Error where
  | missingSource
  | invalidDeclaration (issue : Option Issue)
  | invalidConfig (fault : Config.Fault)
  | lineOutOfRange (line lines : Nat)
  | intentUnavailable (intent : Intent) (refusal : Refusal)
  deriving DecidableEq

def Error.message : Error → String
  | missingSource => "No text source provided"
  | invalidDeclaration issue =>
    "Invalid declaration: " ++ issue.elim "declaration could not be parsed" Issue.message
  | invalidConfig fault => "Invalid configuration: " ++ fault.message
  | lineOutOfRange line lines =>
    "Line " ++ toString line ++ " is out of range (document has " ++ toString lines ++ " lines)"
  | intentUnavailable intent refusal =>
    "Intent '" ++ String.ofList intent.name ++ "' is unavailable: " ++ refusal.message

/-- Passes a valid record on. -/
def Declaration.requireValid (d : Declaration) : Except Error Declaration :=
  if d.valid then .ok d else .error (.invalidDeclaration d.issue)

/-- The index of a line given by its number. -/
def Document.cursor (doc : Document) (number : Nat) : Except Error Nat :=
  if number = 0 ∨ doc.lineCount < number then .error (.lineOutOfRange number doc.lineCount)
  else .ok (number - 1)

/-- Passes a configuration without faults on. -/
def Config.validate (config : Config) : Except Error Config :=
  match config.fault? with
  | some fault => .error (.invalidConfig fault)
  | none => .ok config

end OutOfLine
