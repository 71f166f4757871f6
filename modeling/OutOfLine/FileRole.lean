import OutOfLine.Config
import OutOfLine.Path

/-! Headers and sources, and the file that pairs with another. -/

namespace OutOfLine

inductive FileRole where
  | header
  | source
  deriving DecidableEq

namespace FileRole

def name : FileRole → String
  | header => "header"
  | source => "source"

def ofName? (name : String) : Option FileRole :=
  [header, source].find? fun role => role.name = name

/-- The role of the paired file. -/
def counterpart : FileRole → FileRole
  | header => source
  | source => header

/-- The extensions of files with this role, in order of preference. -/
def extensions (config : Config) : FileRole → List Text
  | header => config.headerExtensions
  | source => config.sourceExtensions

/-- The role that an extension stands for; headers come first. -/
def ofExtension? (config : Config) (extension : Text) : Option FileRole :=
  [header, source].find? fun role => (role.extensions config).any (Text.sameLetters extension)

/-- The role of a file. -/
def ofPath? (config : Config) (path : Text) : Option FileRole :=
  (Path.extension? path).bind (ofExtension? config)

end FileRole

/-- The result of a search for the paired file. -/
inductive Pairing where
  | found (path : Text)
  | missing
  /-- An extension with a slash in it was to be tried. -/
  | malformed
  deriving DecidableEq

namespace Pairing

def path? : Pairing → Option Text
  | found path => some path
  | _ => none

/-- Tries extensions in order until a file is present: the paths tried, and the result. -/
def search (path : Text) (present : Text → Bool) : List Text → List Text × Pairing
  | [] => ([], missing)
  | extension :: rest =>
    if '/' ∈ extension then ([], malformed)
    else
      let candidate := Path.withExtension path extension
      if present candidate then ([candidate], found candidate)
      else
        let result := search path present rest
        (candidate :: result.1, result.2)

/-- Looks for the file that pairs with another. -/
def ofPath (config : Config) (path : Text) (present : Text → Bool) : List Text × Pairing :=
  match FileRole.ofPath? config path with
  | none => ([], missing)
  | some role => search path present (role.counterpart.extensions config)

end Pairing

end OutOfLine
