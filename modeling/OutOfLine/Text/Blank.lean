import OutOfLine.Text
import OutOfLine.Text.CharClass

/-! Blank characters, the runs they divide a text into, and trimming. -/

namespace OutOfLine

/-- The characters with the Unicode property `White_Space`. -/
def blanks : CharClass :=
  [(0x09, 0x0D), (0x20, 0x20), (0x85, 0x85), (0xA0, 0xA0), (0x1680, 0x1680), (0x2000, 0x200A),
    (0x2028, 0x2029), (0x202F, 0x202F), (0x205F, 0x205F), (0x3000, 0x3000)]

def isBlankChar (c : Char) : Bool := blanks.has c

namespace Text

def isBlank (t : Text) : Bool := t.all isBlankChar

def trimStart (t : Text) : Text := t.dropWhile isBlankChar

def trimEnd (t : Text) : Text := (t.reverse.dropWhile isBlankChar).reverse

def trim (t : Text) : Text := trimEnd (trimStart t)

/-- The maximal runs of blank and of other characters, in order. -/
def runs : Text → List Text
  | [] => []
  | c :: cs =>
    match runs cs with
    | (d :: run) :: rest =>
      if isBlankChar c = isBlankChar d then (c :: d :: run) :: rest
      else [c] :: (d :: run) :: rest
    | rest => [c] :: rest

@[simp] theorem flatten_runs (t : Text) : (runs t).flatten = t := by
  induction t with
  | nil => rfl
  | cons c cs ih =>
    simp only [runs]
    split
    · next h => rw [h] at ih; split <;> simpa using ih
    · next h => simpa using ih

/-- The maximal runs of characters that are not blank. -/
def words (t : Text) : List Text := (runs t).filter fun run => !isBlank run

end Text

end OutOfLine
