import OutOfLine.Text

/-! Tokens of C++ text: words, single delimiters, comment markers and literals. -/

namespace OutOfLine

/-- The characters that end a word. -/
def delimiters : List Char :=
  ['*', '=', '<', '>', '{', '}', '\'', '"', '(', ')', ';', ':', ' ', '\n', '\t']

def isDelimiter (c : Char) : Bool := delimiters.contains c

/-- The delimiters that only separate: space, tab and newline. -/
def isSpace (c : Char) : Bool := c == ' ' || c == '\t' || c == '\n'

/-- One token. A line comment holds its text from `//` on, a literal its quotes; the text of a
block comment is a token sequence between its two markers. -/
inductive Token where
  | word (text : Text)
  | delimiter (c : Char)
  | space (c : Char)
  | lineComment (text : Text)
  | commentOpen
  | commentClose
  | literal (text : Text)
  deriving DecidableEq

namespace Token

/-- The characters a token was read from. -/
def text : Token → Text
  | word t => t
  | delimiter c => [c]
  | space c => [c]
  | lineComment t => t
  | commentOpen => ['/', '*']
  | commentClose => ['*', '/']
  | literal t => t

/-- What stands between two lines of a document. -/
def newline : Token := space '\n'

/-- The token of a single delimiter character. -/
def ofDelimiter (c : Char) : Token := if isSpace c then space c else delimiter c

def isWord : Token → Bool
  | word _ => true
  | _ => false

def isSpace : Token → Bool
  | space _ => true
  | _ => false

def isLiteral : Token → Bool
  | literal _ => true
  | _ => false

@[simp] theorem text_ofDelimiter (c : Char) : (ofDelimiter c).text = [c] := by
  unfold ofDelimiter; split <;> rfl

/-- The text that a sequence of tokens was read from. -/
def concat (tokens : List Token) : Text := tokens.flatMap text

@[simp] theorem concat_nil : concat [] = [] := rfl

@[simp] theorem concat_cons (t : Token) (ts : List Token) : concat (t :: ts) = t.text ++ concat ts := by
  simp [concat]

@[simp] theorem concat_append (a b : List Token) : concat (a ++ b) = concat a ++ concat b := by
  simp [concat]

end Token

end OutOfLine
