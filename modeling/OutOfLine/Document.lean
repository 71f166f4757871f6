import OutOfLine.Text

/-! A document is a text with its lines. A line ends at a newline, and one carriage return that
stands directly before that newline on the same line belongs to the ending, not to the content. -/

namespace OutOfLine

/-- How a line ends; only the last line of a document ends with nothing. -/
inductive LineEnd where
  | none
  | lf
  | crlf
  deriving DecidableEq

def LineEnd.text : LineEnd → Text
  | none => []
  | lf => ['\n']
  | crlf => ['\r', '\n']

/-- One line: its number counted from 1, the offset of its first byte, its content and its ending. -/
structure Line where
  number : Nat
  start : Nat
  content : Text
  ending : LineEnd
  deriving DecidableEq

namespace Line

/-- The offset just past the content. -/
def stop (line : Line) : Nat := line.start + line.content.byteLength

/-- Puts one more character in front of the first of some lines. -/
def addChar (c : Char) (lines : (Text × LineEnd) × List (Text × LineEnd)) :
    (Text × LineEnd) × List (Text × LineEnd) :=
  if c = '\n' then (([], .lf), lines.1 :: lines.2)
  else if c = '\r' ∧ lines.1 = ([], .lf) then (([], .crlf), lines.2)
  else ((c :: lines.1.1, lines.1.2), lines.2)

/-- The first line of a text and the others, as contents and endings. -/
def split (text : Text) : (Text × LineEnd) × List (Text × LineEnd) :=
  text.foldr addChar (([], .none), [])

/-- Numbers lines from `number` on, the first one starting at byte `start`. -/
def index (number start : Nat) : List (Text × LineEnd) → List Line
  | [] => []
  | (content, ending) :: rest =>
    ⟨number, start, content, ending⟩ ::
      index (number + 1) (start + content.byteLength + ending.text.byteLength) rest

end Line

structure Document where
  text : Text
  deriving DecidableEq

namespace Document

/-- The lines in order. There is always at least one. -/
def lines (doc : Document) : List Line :=
  let split := Line.split doc.text
  Line.index 1 0 (split.1 :: split.2)

def lineCount (doc : Document) : Nat := doc.lines.length

/-- Length in bytes. -/
def size (doc : Document) : Nat := doc.text.byteLength

/-- The line at an index counted from 0. -/
def line? (doc : Document) (i : Nat) : Option Line := doc.lines[i]?

/-- The offset of the first byte of a line; the size of the document past its end. -/
def lineStart (doc : Document) (i : Nat) : Nat := (doc.line? i).elim doc.size Line.start

/-- The offset just past the content of a line; the size of the document past its end. -/
def lineStop (doc : Document) (i : Nat) : Nat := (doc.line? i).elim doc.size Line.stop

/-- The lines from one index through another, as far as there are such lines. -/
def between (doc : Document) (first last : Nat) : List Line :=
  (doc.lines.take (last + 1)).drop first

/-- The lines from an index on. -/
def linesFrom (doc : Document) (first : Nat) : List Line := doc.lines.drop first

/-- The index of the line that holds a byte offset, the last line for an offset past the end. -/
def lineAt (doc : Document) (offset : Nat) : Nat :=
  (doc.lines.takeWhile fun line => line.start ≤ offset).length - 1

end Document

end OutOfLine
