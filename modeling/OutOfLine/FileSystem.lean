import OutOfLine.Text

/-! A directory tree as the command line sees it. Paths are resolved from the working directory. -/

namespace OutOfLine

/-- Why a file cannot be read or written. -/
inductive FileError where
  | notFound
  | notDirectory
  | isDirectory
  | notUtf8
  | notPermitted
  deriving DecidableEq

def FileError.message : FileError → String
  | notFound => "No such file or directory (os error 2)"
  | notDirectory => "Not a directory (os error 20)"
  | isDirectory => "Is a directory (os error 21)"
  | notUtf8 => "stream did not contain valid UTF-8"
  | notPermitted => "Permission denied (os error 13)"

inductive Entry where
  | text (content : Text)
  /-- A file whose bytes are not UTF-8. -/
  | binary
  | directory
  deriving DecidableEq

/-- A path without dots and empty parts. An absolute one starts with a slash as its first part. -/
abbrev Location := List Text

structure FileSystem where
  entries : List (Location × Entry)
  /-- The files that cannot be written. -/
  locked : Location → Bool

namespace FileSystem

/-- The parts between the slashes of a path. -/
def parts : Text → List Text
  | [] => [[]]
  | '/' :: rest => [] :: parts rest
  | c :: rest =>
    match parts rest with
    | part :: more => (c :: part) :: more
    | [] => [[c]]

/-- Whether a location lies outside the tree, at or above the working directory. -/
def isOuter (location : Location) : Bool :=
  location == [['/']] || location.all (· == ['.', '.'])

/-- What stands at a location. A directory need not have an entry of its own. -/
def entryAt? (fs : FileSystem) (location : Location) : Option Entry :=
  match fs.entries.lookup location with
  | some entry => some entry
  | none =>
    if isOuter location || fs.entries.any (fun item => location.isPrefixOf item.1) then
      some .directory
    else none

/-- Goes from a directory to one of its parts. -/
def enter (location : Location) (part : Text) : Location :=
  if part = [] ∨ part = ['.'] then location
  else if part = ['.', '.'] then
    if location = [['/']] then location
    else match location.getLast? with
      | some last => if last = ['.', '.'] then location ++ [part] else location.dropLast
      | none => [part]
  else location ++ [part]

/-- Follows the parts of a path. Every part but the last one has to be a directory. -/
def follow (fs : FileSystem) (location : Location) : List Text → Except FileError Location
  | [] => .ok location
  | part :: rest =>
    match fs.entryAt? location with
    | none => .error .notFound
    | some .directory => fs.follow (enter location part) rest
    | some _ => .error .notDirectory

/-- Where a path starts. -/
def base (path : Text) : Location := if path.head? = some '/' then [['/']] else []

def locate (fs : FileSystem) (path : Text) : Except FileError Location :=
  fs.follow (base path) (parts path)

/-- What stands at a path. -/
def lookup (fs : FileSystem) (path : Text) : Except FileError Entry := do
  match fs.entryAt? (← fs.locate path) with
  | some entry => return entry
  | none => throw .notFound

def contains (fs : FileSystem) (path : Text) : Bool := (fs.lookup path).toOption.isSome

def isFile (fs : FileSystem) (path : Text) : Bool :=
  match fs.lookup path with
  | .ok .directory => false
  | .ok _ => true
  | .error _ => false

/-- The text of a file. -/
def read (fs : FileSystem) (path : Text) : Except FileError Text := do
  match ← fs.lookup path with
  | .text content => return content
  | .binary => throw .notUtf8
  | .directory => throw .isDirectory

/-- Replaces the text of a file, or makes a new file. -/
def write (fs : FileSystem) (path content : Text) : Except FileError FileSystem := do
  let location ← fs.locate path
  if fs.entryAt? location = some .directory then throw .isDirectory
  if fs.locked location then throw .notPermitted
  let others := fs.entries.filter fun item => item.1 ≠ location
  return { fs with entries := (location, .text content) :: others }

/-- The location that a path names if all directories on it exist. -/
def location (path : Text) : Location := (parts path).foldl enter (base path)

/-- The directories that a path goes through, and the path itself. -/
def waypoints (path : Text) : List Text :=
  ((List.range (path.length + 1)).filter fun n => path[n]?.all (· = '/')).map path.take

/-- A tree with the given files, of which some are locked. -/
def ofFiles (files : List (Text × Entry)) (locked : List Text) : FileSystem :=
  { entries := files.map fun file => (location file.1, file.2)
    locked := (locked.map location).contains }

end FileSystem

end OutOfLine
