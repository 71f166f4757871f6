import OutOfLine.Text.Blank

/-! Parameter lists: splitting at commas and taking off default values. Commas and equals signs count
only outside brackets and literals. -/

namespace OutOfLine

/-- How deep in brackets a place is, and in which literal. -/
structure Nesting where
  depth : Nat := 0
  quote : Option Char := none
  escaped : Bool := false
  deriving DecidableEq

namespace Nesting

/-- Outside brackets and literals. -/
def isTop (n : Nesting) : Bool := n.depth == 0 && n.quote.isNone

/-- The nesting after one more character. -/
def step (n : Nesting) (c : Char) : Nesting :=
  match n.quote with
  | some quote =>
    if n.escaped then { n with escaped := false }
    else if c = '\\' then { n with escaped := true }
    else if c = quote then { n with quote := none }
    else n
  | none =>
    if c = '"' ∨ c = '\'' then { n with quote := some c }
    else if c ∈ ['<', '(', '{', '['] then { n with depth := n.depth + 1 }
    else if c ∈ ['>', ')', '}', ']'] then { n with depth := n.depth - 1 }
    else n

end Nesting

namespace Parameters

/-- The pieces between the top-level occurrences of a mark. There is always a first one. -/
def pieces (mark : Char) (n : Nesting) : Text → Text × List Text
  | [] => ([], [])
  | c :: cs =>
    let rest := pieces mark (n.step c) cs
    if n.isTop && c == mark then ([], rest.1 :: rest.2) else (c :: rest.1, rest.2)

/-- The parameters of a list, trimmed. A blank list has none. -/
def split (list : Text) : List Text :=
  if list.isBlank then []
  else
    let parts := pieces ',' {} list
    (parts.1 :: parts.2).map Text.trim

/-- A parameter without its default value. -/
def stripDefault (parameter : Text) : Text :=
  match pieces '=' {} parameter with
  | (_, []) => parameter
  | (before, _ :: _) => before.trimEnd

/-- A parameter list without default values. -/
def stripDefaults (list : Text) : Text := Text.join [',', ' '] ((split list).map stripDefault)

end Parameters

end OutOfLine
