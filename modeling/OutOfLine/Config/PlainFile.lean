import OutOfLine.Config.File

/-! A reader of plain configuration files: lines `key = value` where a value is a string, an integer, a
truth value or an array. No key may stand twice. -/

namespace OutOfLine

namespace ConfigFile

/-- Joins a carriage return to the newline after it. -/
def joinLineEnds : Text → Text
  | '\r' :: '\n' :: rest => '\n' :: joinLineEnds rest
  | c :: rest => c :: joinLineEnds rest
  | [] => []

/-- Characters that may not stand in strings and comments. -/
def isControl (c : Char) : Bool := (c.toNat < 0x20 && c != '\t') || c == '\x7f'

def isGap (c : Char) : Bool := c == ' ' || c == '\t'

/-- Drops gaps, newlines and comments. -/
def skipLines (inComment : Bool) : Text → Option Text
  | [] => some []
  | c :: rest =>
    if c = '\n' then skipLines false rest
    else if inComment then if isControl c then none else skipLines true rest
    else if c = '#' then skipLines true rest
    else if isGap c then skipLines false rest
    else some (c :: rest)

/-- Reads on after a value: only a gap and a comment may stand before the end of the line. -/
def endLine (text : Text) : Option Text :=
  match text.dropWhile isGap with
  | [] => some []
  | '\n' :: rest => some rest
  | '#' :: rest =>
    let comment := rest.takeWhile (· ≠ '\n')
    if comment.any isControl then none else some (rest.drop (comment.length + 1))
  | _ => none

def escaped : Char → Option Char
  | 'b' => some '\x08'
  | 't' => some '\t'
  | 'n' => some '\n'
  | 'f' => some '\x0c'
  | 'r' => some '\r'
  | '"' => some '"'
  | '\\' => some '\\'
  | _ => none

/-- Reads a string with escapes, after its opening quote. -/
def basicString : Text → Option (Text × Text)
  | [] => none
  | '"' :: rest => some ([], rest)
  | '\\' :: c :: rest => do
    let c ← escaped c
    let (string, rest) ← basicString rest
    return (c :: string, rest)
  | c :: rest =>
    if isControl c then none
    else (basicString rest).map fun read => (c :: read.1, read.2)

/-- Reads a string without escapes, after its opening quote. -/
def literalString (text : Text) : Option (Text × Text) :=
  let string := text.takeWhile (· ≠ '\'')
  match text.drop string.length with
  | '\'' :: rest => if string.any isControl then none else some (string, rest)
  | _ => none

/-- The value of digits, which may be grouped by single underscores. -/
def digits? (text : Text) : Option Nat :=
  let digits := text.filter (· ≠ '_')
  let grouped := text.head? ≠ some '_' ∧ text.getLast? ≠ some '_' ∧ !Text.includes ['_', '_'] text
  let plain := digits.length = 1 ∨ digits.head? ≠ some '0'
  if digits ≠ [] ∧ grouped ∧ plain then
    some (digits.foldl (fun n c => 10 * n + (c.toNat - '0'.toNat)) 0)
  else none

/-- Reads an integer; it has to fit into 64 bits. -/
def integer (text : Text) : Option (Int × Text) := do
  let (negative, text) := match text with
    | '-' :: rest => (true, rest)
    | '+' :: rest => (false, rest)
    | rest => (false, rest)
  let run := text.takeWhile fun c => c.isDigit || c == '_'
  let n ← digits? run
  if n < Nat.pow 2 63 ∨ (negative ∧ n = Nat.pow 2 63) then
    return (if negative then -(n : Int) else n, text.drop run.length)
  else none

def truth (text : Text) : Option (Bool × Text) :=
  if "true".toList.isPrefixOf text then some (true, text.drop 4)
  else if "false".toList.isPrefixOf text then some (false, text.drop 5)
  else none

mutual

/-- Reads a value; the fuel bounds the depth and length of arrays. -/
def value : Nat → Text → Option (Value × Text)
  | 0, _ => none
  | _ + 1, '"' :: rest => (basicString rest).map fun read => (.text read.1, read.2)
  | _ + 1, '\'' :: rest => (literalString rest).map fun read => (.text read.1, read.2)
  | fuel + 1, '[' :: rest => (items fuel rest).map fun read => (.list read.1, read.2)
  | _ + 1, rest =>
    ((integer rest).map fun read => (.integer read.1, read.2)) <|>
      ((truth rest).map fun read => (.boolean read.1, read.2))

/-- Reads the items of an array after its bracket or after a comma. -/
def items : Nat → Text → Option (List Value × Text)
  | 0, _ => none
  | fuel + 1, text => do
    match ← skipLines false text with
    | ']' :: rest => return ([], rest)
    | text =>
      let (item, rest) ← value fuel text
      match ← skipLines false rest with
      | ']' :: rest => return ([item], rest)
      | ',' :: rest =>
        let (more, rest) ← items fuel rest
        return (item :: more, rest)
      | _ => none

end

def isKeyChar (c : Char) : Bool := c.isAlphanum || c == '_' || c == '-'

/-- Reads the fields of a file; the fuel bounds their number. -/
def fields : Nat → Text → Option (List (Text × Value))
  | 0, _ => none
  | fuel + 1, text => do
    let text ← skipLines false text
    if text.isEmpty then return []
    let key := text.takeWhile isKeyChar
    if key.isEmpty then none
    match (text.drop key.length).dropWhile isGap with
    | '=' :: rest =>
      let (value, rest) ← value (text.length + 1) (rest.dropWhile isGap)
      let rest ← endLine rest
      let more ← fields fuel rest
      return (key, value) :: more
    | _ => none

def distinct : List Text → Bool
  | [] => true
  | key :: rest => !rest.contains key && distinct rest

/-- Reads the fields of a plain file. -/
def readPlain : Reader := fun text => do
  let text := joinLineEnds (if text.head? = some '\ufeff' then text.tail else text)
  let fields ← fields (text.length + 1) text
  if distinct (fields.map Prod.fst) then return fields else none

end ConfigFile

end OutOfLine
