import OutOfLine.Document
import OutOfLine.Token.Lexer

/-! Code tokens: the tokens of a text or of some lines without their comments. One view keeps the
line of each token and can keep spaces; the other keeps byte offsets and drops every space. -/

namespace OutOfLine

/-- The tokens of a line, its newline included, and whether it ends inside a block comment. -/
def Line.tokens (inComment : Bool) (line : Line) : List Token × Bool :=
  let lexed := tokenize inComment line.content
  (if line.ending = .none then lexed.1 else lexed.1 ++ [.newline], lexed.2)

/-- Removes the comments from a token sequence that starts inside a block comment or not. -/
def dropComments (inside : Bool) : List Token → List Token
  | [] => []
  | t :: ts =>
    if inside then dropComments (t != .commentClose) ts
    else match t with
      | .commentOpen => dropComments true ts
      | .lineComment _ => dropComments false ts
      | _ => t :: dropComments false ts

/-- The code tokens of a text, spaces included. -/
def Text.code (text : Text) : List Token := dropComments false (tokenize false text).1

/-- A code token and the line it stands on. -/
structure Placed where
  token : Token
  line : Line
  deriving DecidableEq

/-- The code tokens of consecutive lines, spaces included. -/
def codeOfLines (inComment : Bool) : List Line → List Placed
  | [] => []
  | line :: rest =>
    let lexed := line.tokens inComment
    (dropComments inComment lexed.1).map (⟨·, line⟩) ++ codeOfLines lexed.2 rest

/-- Leaves out the spaces. -/
def withoutSpaces (tokens : List Placed) : List Placed :=
  tokens.filter fun placed => !placed.token.isSpace

/-- A code token and the byte offset at which it starts. -/
structure Located where
  offset : Nat
  token : Token
  deriving DecidableEq

/-- The code tokens of a token sequence that starts at a byte offset, without spaces. -/
def locate (inside : Bool) (offset : Nat) : List Token → List Located
  | [] => []
  | t :: ts =>
    let next := offset + t.text.byteLength
    match t with
    | .commentOpen => locate true next ts
    | .commentClose => locate false next ts
    | .lineComment _ => locate inside next ts
    | .space _ => locate inside next ts
    | _ => if inside then locate inside next ts else ⟨offset, t⟩ :: locate inside next ts

/-- The located code tokens of one line, and whether it ends inside a block comment. -/
def Line.located (inComment : Bool) (line : Line) : List Located × Bool :=
  let lexed := tokenize inComment line.content
  (locate inComment line.start lexed.1, lexed.2)

/-- The located code tokens of consecutive lines. -/
def locateLines (inComment : Bool) : List Line → List Located
  | [] => []
  | line :: rest =>
    let code := line.located inComment
    code.1 ++ locateLines code.2 rest

end OutOfLine
