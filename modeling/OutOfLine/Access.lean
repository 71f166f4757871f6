import OutOfLine.Document
import OutOfLine.Text.Blank
import OutOfLine.Text.WordChar

/-! Access labels and the label in force at a line. -/

namespace OutOfLine

inductive Access where
  | isPublic
  | isProtected
  | isPrivate
  deriving DecidableEq

namespace Access

def keyword : Access → Text
  | isPublic => "public".toList
  | isProtected => "protected".toList
  | isPrivate => "private".toList

/-- Whether nothing but blanks and a line comment is left of a line. -/
def nothingFollows (text : Text) : Bool :=
  match text.trimStart with
  | [] => true
  | '/' :: '/' :: comment => !comment.contains '\n'
  | _ => false

/-- Whether text after an access keyword makes it a label: the keyword ends there, and at the first
colon the line is over. -/
def endsLabel (text : Text) : Bool :=
  !text.head?.any isWordChar &&
    match text.dropWhile (· ≠ ':') with
    | ':' :: rest => nothingFollows rest
    | _ => false

/-- The access label that makes up a line. -/
def label? (content : Text) : Option Access :=
  let text := content.trimStart
  [isPublic, isProtected, isPrivate].find? fun access =>
    access.keyword.isPrefixOf text && endsLabel (text.drop access.keyword.length)

/-- How many more braces a line closes than it opens, wherever they stand. -/
def closing (content : Text) : Int := content.count '}' - content.count '{'

/-- The nearest label in lines read upwards, `depth` blocks below the one that matters. -/
def nearest (depth : Int) : List Line → Option Access
  | [] => none
  | line :: above =>
    let depth := depth + closing line.content
    if depth < 0 then none
    else if depth = 0 then
      match label? line.content with
      | some access => some access
      | none => nearest depth above
    else nearest depth above

end Access

/-- The label in force at the line at an index, if the block around it has one above. -/
def Document.accessAt (doc : Document) (i : Nat) : Option Access :=
  if i ≤ doc.lineCount then Access.nearest 0 (doc.lines.take i).reverse else none

end OutOfLine
