import OutOfLine.Access
import OutOfLine.Code

/-! What stands at a line: the text of a statement, and the places of an inline body and of a member
initializer list. -/

namespace OutOfLine

namespace Statement

/-- How many more braces tokens open than they close. -/
def opening (tokens : List Located) : Int :=
  tokens.foldl (fun depth located =>
    if located.token = .delimiter '{' then depth + 1
    else if located.token = .delimiter '}' then depth - 1
    else depth) 0

/-- Whether the last token can end a statement. -/
def canEnd (tokens : List Located) : Bool :=
  tokens.getLast?.any fun located =>
    located.token = .delimiter ';' || located.token = .delimiter '}'

/-- The contents of the lines of a statement, at most `bound` of them. It ends with a line that ends
in a semicolon or brace outside the braces opened since its start, or with an access label; a first
line without code is a statement of its own. -/
def gather (inComment : Bool) (depth : Int) (first : Bool) : Nat → List Line → List Text
  | 0, _ => []
  | _ + 1, [] => []
  | bound + 1, line :: rest =>
    let code := line.located inComment
    let depth := depth + opening code.1
    if (first && code.1.isEmpty) || (Access.label? line.content).isSome ||
        (canEnd code.1 && depth ≤ 0) then [line.content]
    else line.content :: gather code.2 depth false bound rest

/-- The offset after the brace that closes the outermost of `depth` blocks. -/
def closeBody (depth : Nat) : List Located → Option Nat
  | [] => none
  | located :: rest =>
    if located.token = .delimiter '{' then closeBody (depth + 1) rest
    else if located.token = .delimiter '}' then
      if depth = 1 then some (located.offset + 1) else closeBody (depth - 1) rest
    else closeBody depth rest

/-- The first block outside parentheses, unless a semicolon comes before it. -/
def findBody (parens : Nat) : List Located → Option (Nat × Nat)
  | [] => none
  | located :: rest =>
    match located.token with
    | .delimiter '(' => findBody (parens + 1) rest
    | .delimiter ')' => findBody (parens - 1) rest
    | .delimiter ';' => if parens = 0 then none else findBody parens rest
    | .delimiter '{' =>
      if parens = 0 then (closeBody 1 rest).map (located.offset, ·) else findBody parens rest
    | _ => findBody parens rest

/-- Whether two tokens are the halves of a `::`. -/
def isPair (first second : Located) : Bool :=
  first.token = .delimiter ':' && second.token = .delimiter ':' && first.offset + 1 = second.offset

/-- The first colon that is not half of `::`, stands outside parentheses and follows a closed group,
unless a brace or semicolon comes before it. -/
def findInitializers (parens : Nat) (closed : Bool) (previous : Option Located) :
    List Located → Option Nat
  | [] => none
  | located :: rest =>
    match located.token with
    | .delimiter '(' => findInitializers (parens + 1) closed (some located) rest
    | .delimiter ')' =>
      findInitializers (parens - 1) (closed || parens - 1 == 0) (some located) rest
    | .delimiter '{' =>
      if parens = 0 then none else findInitializers parens closed (some located) rest
    | .delimiter ';' =>
      if parens = 0 then none else findInitializers parens closed (some located) rest
    | .delimiter ':' =>
      let paired := previous.any (isPair · located) || rest.head?.any (isPair located)
      if parens = 0 ∧ closed ∧ !paired then some located.offset
      else findInitializers parens closed (some located) rest
    | _ => findInitializers parens closed (some located) rest

end Statement

namespace Document

/-- The statement that starts at a line, its lines joined by newlines. -/
def statementAt (doc : Document) (i bound : Nat) : Text :=
  Text.join ['\n'] (Statement.gather false 0 true bound (doc.linesFrom i))

/-- The byte range of the inline body of the declaration that starts at a line, braces included. -/
def bodyRange (doc : Document) (i : Nat) : Option (Nat × Nat) :=
  Statement.findBody 0 (locateLines false (doc.linesFrom i))

/-- The offset of the colon before the member initializers of the constructor that starts at a
line. -/
def initializerStart (doc : Document) (i : Nat) : Option Nat :=
  Statement.findInitializers 0 false none (locateLines false (doc.linesFrom i))

end Document

end OutOfLine
