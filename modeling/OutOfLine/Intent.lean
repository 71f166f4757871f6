import OutOfLine.FileRole

/-! The edits that can be offered for a declaration. -/

namespace OutOfLine

inductive Intent where
  /-- Write an empty definition into the source file. -/
  | declareInSource
  /-- Move an inline body from the header into the source file. -/
  | moveImplementationToSource
  deriving DecidableEq

namespace Intent

def all : List Intent := [declareInSource, moveImplementationToSource]

def name : Intent → Text
  | declareInSource => "declare_in_source".toList
  | moveImplementationToSource => "move_implementation_to_source".toList

def ofName? (name : Text) : Option Intent := all.find? fun intent => intent.name = name

/-- What a menu shows for an intent, with the name of the file that receives the definition. -/
def caption (fileName : Text) : Intent → Text
  | declareInSource => "Declare in ".toList ++ fileName
  | moveImplementationToSource => "Move implementation to ".toList ++ fileName

/-- The roles of the files in which an intent is offered. -/
def roles : Intent → List FileRole
  | declareInSource => [.header]
  | moveImplementationToSource => [.header]

/-- The intents offered in files of a role. -/
def offeredIn (role : FileRole) : List Intent := all.filter fun intent => role ∈ intent.roles

end Intent

end OutOfLine
