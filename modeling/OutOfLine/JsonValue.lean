import OutOfLine.Text

/-! JSON values and their indented text. -/

namespace OutOfLine

inductive JsonValue where
  | null
  | bool (value : Bool)
  | num (value : Nat)
  | str (value : Text)
  | arr (items : List JsonValue)
  | obj (fields : List (String × JsonValue))

namespace JsonValue

def ofOption {α : Type} (value : α → JsonValue) : Option α → JsonValue
  | none => null
  | some a => value a

def ofString (s : String) : JsonValue := str s.toList

/-- One character of a JSON string. -/
def escape (c : Char) : Text :=
  match c with
  | '"' => ['\\', '"']
  | '\\' => ['\\', '\\']
  | '\n' => ['\\', 'n']
  | '\r' => ['\\', 'r']
  | '\t' => ['\\', 't']
  | '\x08' => ['\\', 'b']
  | '\x0c' => ['\\', 'f']
  | _ =>
    if c.toNat < 0x20 then
      let digits := Nat.toDigits 16 c.toNat
      ['\\', 'u'] ++ List.replicate (4 - digits.length) '0' ++ digits
    else [c]

def quoted (t : Text) : Text := ['"'] ++ t.flatMap escape ++ ['"']

/-- A new line with its indentation. -/
def newline (level : Nat) : Text := '\n' :: List.replicate (2 * level) ' '

mutual

/-- The text of a value that stands at a level of indentation. -/
def pretty (level : Nat) : JsonValue → Text
  | null => "null".toList
  | bool true => "true".toList
  | bool false => "false".toList
  | num n => (toString n).toList
  | str t => quoted t
  | arr [] => ['[', ']']
  | arr items => ['['] ++ prettyItems (level + 1) items ++ newline level ++ [']']
  | obj [] => ['{', '}']
  | obj fields => ['{'] ++ prettyFields (level + 1) fields ++ newline level ++ ['}']

def prettyItems (level : Nat) : List JsonValue → Text
  | [] => []
  | [item] => newline level ++ pretty level item
  | item :: rest => newline level ++ pretty level item ++ [','] ++ prettyItems level rest

def prettyFields (level : Nat) : List (String × JsonValue) → Text
  | [] => []
  | [(key, value)] =>
    newline level ++ quoted key.toList ++ [':', ' '] ++ pretty level value
  | (key, value) :: rest =>
    newline level ++ quoted key.toList ++ [':', ' '] ++ pretty level value ++ [','] ++
      prettyFields level rest

end

end JsonValue

end OutOfLine
