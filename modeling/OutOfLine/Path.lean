import OutOfLine.Text

/-! File paths: the file name, its stem and its extension. Slashes and single dots after the file name
do not count. -/

namespace OutOfLine

namespace Path

/-- Drops the slashes and single dots at the end of a path, given last character first. -/
def dropTail : Text → Text
  | '/' :: rest => dropTail rest
  | ['.'] => []
  | '.' :: '/' :: rest => dropTail rest
  | path => path

/-- The directory part, with its last slash, and the file name. A path that ends in a root or in a
parent directory has no file name. -/
def split? (path : Text) : Option (Text × Text) :=
  let path := dropTail path.reverse
  let name := (path.takeWhile (· ≠ '/')).reverse
  if name = [] ∨ name = ['.', '.'] then none
  else some ((path.drop name.length).reverse, name)

def fileName? (path : Text) : Option Text := (split? path).map Prod.snd

/-- Divides a file name at its last dot. A dot that comes first does not start an extension. -/
def splitName (name : Text) : Text × Option Text :=
  let after := (name.reverse.takeWhile (· ≠ '.')).reverse
  let stem := name.take (name.length - after.length - 1)
  if stem = [] then (name, none) else (stem, some after)

def extension? (path : Text) : Option Text := (fileName? path).bind fun name => (splitName name).2

/-- Cuts a path after the stem of its file name and puts an extension there. A path without a file
name stays as it is. -/
def setExtension (path extension : Text) : Text :=
  match split? path with
  | none => path
  | some (directory, name) =>
    let suffix := if extension = [] then [] else '.' :: extension
    directory ++ (splitName name).1 ++ suffix

/-- Replaces the extension: as many characters as the old one has go from the end of the path, and
the new one is set on what is left. -/
def withExtension (path extension : Text) : Text :=
  let old := (extension? path).getD []
  setExtension (path.take (path.length - old.length)) extension

end Path

end OutOfLine
