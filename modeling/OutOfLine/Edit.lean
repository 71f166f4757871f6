import OutOfLine.Text

/-! Edits of a pair of files and plans made of them. -/

namespace OutOfLine

/-- The file that an edit changes. -/
inductive EditTarget where
  /-- The file with the cursor. -/
  | active
  /-- The file paired with it. -/
  | counterpart
  deriving DecidableEq

namespace EditTarget

/-- The name in data. -/
def name : EditTarget → String
  | active => "active"
  | counterpart => "counterpart"

def ofName? (name : String) : Option EditTarget :=
  [active, counterpart].find? fun target => target.name = name

end EditTarget

/-- Replaces the bytes from `start` to `stop` of a file. -/
structure Edit where
  target : EditTarget
  start : Nat
  stop : Nat
  replacement : Text
  deriving DecidableEq

namespace Edit

/-- Applies an edit to a text. Offsets past the end count as the end, and a start past the stop as
the stop. There is no result when one of them lies inside a character. -/
def applyTo (edit : Edit) (text : Text) : Option Text := do
  let stop := min edit.stop text.byteLength
  let start := min edit.start stop
  let before ← text.splitAtByte? start
  let after ← text.splitAtByte? stop
  return before.1 ++ edit.replacement ++ after.2

/-- Puts an edit into a list with falling starts, before those that start where it does. -/
def insert (edit : Edit) : List Edit → List Edit
  | [] => [edit]
  | other :: rest =>
    if other.start ≤ edit.start then edit :: other :: rest else other :: insert edit rest

/-- Orders edits by falling start and keeps the order of those that start together. -/
def sort (edits : List Edit) : List Edit := edits.foldr insert []

/-- Applies edits one after the other. -/
def applyAll (edits : List Edit) (text : Text) : Option Text :=
  edits.foldlM (fun text edit => edit.applyTo text) text

end Edit

/-- The edits of one file among those of a pair. -/
def editsOf (target : EditTarget) (edits : List Edit) : List Edit :=
  edits.filter fun edit => edit.target = target

/-- Applies the edits of one file to its text, the last place first. -/
def applyEdits (target : EditTarget) (edits : List Edit) (text : Text) : Option Text :=
  Edit.applyAll (Edit.sort (editsOf target edits)) text

end OutOfLine
