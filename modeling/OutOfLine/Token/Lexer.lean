import OutOfLine.Token

/-! Lexing as a machine that reads one character at a time. A mode holds the characters read
since the last token, so nothing is looked at twice and nothing is lost; a piece of text is lexed
from the mode of its block-comment state, and only that state is carried on to the next piece. -/

namespace OutOfLine

namespace Lexer

/-- Where the lexer stands between two characters. Texts are held latest character first. -/
inductive Mode where
  /-- In code, after the characters of a word. -/
  | code (word : Text)
  /-- In code, after a word and a `/` that may open a comment. -/
  | slash (word : Text)
  /-- In code, after a `*` that may belong to a `*/`. -/
  | star
  /-- In code, after `*/`, whose `/` may still open a block comment. -/
  | starSlash
  | lineComment (text : Text)
  | literal (quote : Char) (escaped : Bool) (text : Text)
  /-- In a block comment, after the characters of a word. -/
  | comment (word : Text)
  /-- In a block comment, after a `*` that may close it. -/
  | commentStar
  deriving DecidableEq

/-- The mode in which a piece of text starts. -/
def Mode.start (inComment : Bool) : Mode := if inComment then .comment [] else .code []

/-- The word held, as a token, if there is one. -/
def flush (word : Text) : List Token := if word.isEmpty then [] else [.word word.reverse]

/-- A word that starts with a digit is a number, and a quote in it separates digits. -/
def inNumber (word : Text) : Bool := word.getLast?.any Char.isDigit

def isQuote (c : Char) : Bool := c == '"' || c == '\''

/-- Reads a character of code after the characters of a word. -/
def readCode (word : Text) (c : Char) : List Token × Mode :=
  if c = '/' then ([], .slash word)
  else if c = '*' then (flush word, .star)
  else if isQuote c && !inNumber word then (flush word, .literal c false [c])
  else if isDelimiter c then (flush word ++ [.ofDelimiter c], .code [])
  else ([], .code (c :: word))

/-- Reads a character of a block comment after the characters of a word. -/
def readComment (word : Text) (c : Char) : List Token × Mode :=
  if c = '*' then (flush word, .commentStar)
  else if isDelimiter c then (flush word ++ [.ofDelimiter c], .comment [])
  else ([], .comment (c :: word))

/-- Puts tokens before the result of a step. -/
def after (tokens : List Token) (result : List Token × Mode) : List Token × Mode :=
  (tokens ++ result.1, result.2)

/-- Reads one character: the tokens that it completes, and the next mode. -/
def step : Mode → Char → List Token × Mode
  | .code word, c => readCode word c
  | .slash word, c =>
    if c = '/' then (flush word, .lineComment ['/', '/'])
    else if c = '*' then (flush word ++ [.commentOpen], .comment [])
    else readCode ('/' :: word) c
  | .star, c =>
    if c = '/' then ([], .starSlash) else after [.delimiter '*'] (readCode [] c)
  | .starSlash, c =>
    if c = '*' then ([.delimiter '*', .commentOpen], .comment [])
    else after [.commentClose] (readCode [] c)
  | .lineComment text, c =>
    if c = '\n' then ([.lineComment text.reverse, .newline], .code [])
    else ([], .lineComment (c :: text))
  | .literal quote escaped text, c =>
    if c = '\n' then ([.literal text.reverse, .newline], .code [])
    else if c = '\\' && !escaped then ([], .literal quote true (c :: text))
    else if c = quote && !escaped then ([.literal (c :: text).reverse], .code [])
    else ([], .literal quote false (c :: text))
  | .comment word, c => readComment word c
  | .commentStar, c =>
    if c = '/' then ([.commentClose], .code []) else after [.delimiter '*'] (readComment [] c)

/-- The tokens still held when the text ends. -/
def Mode.finish : Mode → List Token
  | .code word => flush word
  | .slash word => flush ('/' :: word)
  | .star => [.delimiter '*']
  | .starSlash => [.commentClose]
  | .lineComment text => [.lineComment text.reverse]
  | .literal _ _ text => [.literal text.reverse]
  | .comment word => flush word
  | .commentStar => [.delimiter '*']

/-- Whether text that ends in this mode ends inside a block comment. -/
def Mode.inComment : Mode → Bool
  | .comment _ => true
  | .commentStar => true
  | _ => false

/-- Reads text from a mode on: all its tokens, and whether it ends inside a block comment. -/
def run (mode : Mode) : Text → List Token × Bool
  | [] => (mode.finish, mode.inComment)
  | c :: cs =>
    let read := step mode c
    let rest := run read.2 cs
    (read.1 ++ rest.1, rest.2)

theorem length_flush_le (word : Text) : (flush word).length ≤ 1 := by
  unfold flush; split <;> simp

theorem length_readCode_le (word : Text) (c : Char) :
    (readCode word c).1.length + (readCode word c).2.finish.length ≤ (flush word).length + 1 := by
  unfold readCode
  split
  · simp [Mode.finish, flush]
  · split
    · simp [Mode.finish]
    · split
      · simp [Mode.finish]
      · split <;> simp [Mode.finish, flush]

theorem length_readComment_le (word : Text) (c : Char) :
    (readComment word c).1.length + (readComment word c).2.finish.length ≤
      (flush word).length + 1 := by
  unfold readComment
  split
  · simp [Mode.finish]
  · split <;> simp [Mode.finish, flush]

/-- A character adds at most one token to those that the mode already holds. -/
theorem length_step_le (mode : Mode) (c : Char) :
    (step mode c).1.length + (step mode c).2.finish.length ≤ mode.finish.length + 1 := by
  cases mode with
  | code word => exact length_readCode_le word c
  | slash word =>
    have h := length_flush_le word
    have hc := length_readCode_le ('/' :: word) c
    simp only [step]
    split
    · simpa [Mode.finish, flush] using h
    · split
      · simp [Mode.finish, flush] at *; omega
      · exact hc
  | star =>
    have hc := length_readCode_le [] c
    simp only [step]
    split
    · simp [Mode.finish]
    · simp [Mode.finish, after, flush] at *; omega
  | starSlash =>
    have hc := length_readCode_le [] c
    simp only [step]
    split
    · simp [Mode.finish, flush]
    · simp [Mode.finish, after, flush] at *; omega
  | lineComment text => simp only [step]; split <;> simp [Mode.finish, flush]
  | literal quote escaped text =>
    simp only [step]
    split
    · simp [Mode.finish, flush]
    · split
      · simp [Mode.finish]
      · split <;> simp [Mode.finish, flush]
  | comment word => exact length_readComment_le word c
  | commentStar =>
    have hc := length_readComment_le [] c
    simp only [step]
    split
    · simp [Mode.finish, flush]
    · simp [Mode.finish, after, flush] at *; omega

theorem length_run_le (mode : Mode) (text : Text) :
    (run mode text).1.length ≤ mode.finish.length + text.length := by
  induction text generalizing mode with
  | nil => simp [run]
  | cons c cs ih =>
    have hs := length_step_le mode c
    have hr := ih (step mode c).2
    simp only [run, List.length_append, List.length_cons]
    omega

end Lexer

/-- The tokens of a piece of text that starts inside a block comment or not, and whether it ends
inside one. -/
def tokenize (inComment : Bool) (text : Text) : List Token × Bool :=
  Lexer.run (.start inComment) text

/-- There are no more tokens than characters. -/
theorem length_tokenize_le (inComment : Bool) (text : Text) :
    (tokenize inComment text).1.length ≤ text.length := by
  have h := Lexer.length_run_le (.start inComment) text
  cases inComment <;> simpa [tokenize, Lexer.Mode.start, Lexer.Mode.finish, Lexer.flush] using h

end OutOfLine
