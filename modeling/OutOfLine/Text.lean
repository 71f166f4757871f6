/-! Text as a list of characters, measured in the bytes of its UTF-8 encoding.
Every offset of the library is such a byte offset. -/

namespace OutOfLine

abbrev Text := List Char

namespace Text

/-- Named, so that every test for a text among others rests on this one proof. -/
instance lawfulBEq : LawfulBEq Text := inferInstance

/-- Number of bytes of the UTF-8 encoding. -/
def byteLength : Text → Nat
  | [] => 0
  | c :: cs => c.utf8Size + byteLength cs

@[simp] theorem byteLength_nil : byteLength [] = 0 := rfl

@[simp] theorem byteLength_cons (c : Char) (cs : Text) :
    byteLength (c :: cs) = c.utf8Size + byteLength cs := rfl

@[simp] theorem byteLength_append (a b : Text) :
    byteLength (a ++ b) = byteLength a + byteLength b := by
  induction a with
  | nil => simp
  | cons c cs ih => simp [ih, Nat.add_assoc]

/-- The parts before and after a byte offset. There are none when the offset lies
inside a character or past the end. -/
def splitAtByte? : Text → Nat → Option (Text × Text)
  | t, 0 => some ([], t)
  | [], _ + 1 => none
  | c :: cs, n + 1 =>
    if c.utf8Size ≤ n + 1 then
      (splitAtByte? cs (n + 1 - c.utf8Size)).map fun parts => (c :: parts.1, parts.2)
    else none

/-- The part between two byte offsets. -/
def slice? (t : Text) (start stop : Nat) : Option Text := do
  let upTo ← t.splitAtByte? stop
  let parts ← splitAtByte? upTo.1 start
  return parts.2

/-- Whether `part` occurs in the text without a gap. -/
def includes (part : Text) : Text → Bool
  | [] => part.isEmpty
  | c :: cs => part.isPrefixOf (c :: cs) || includes part cs

/-- The texts with `separator` between each two of them. -/
def join (separator : Text) (parts : List Text) : Text := separator.intercalate parts

/-- What follows the last `::`, or the whole text if there is none. -/
def lastSegment (t : Text) : Text := (beforePair t.reverse).reverse
where
  beforePair : Text → Text
    | ':' :: ':' :: _ => []
    | c :: cs => c :: beforePair cs
    | [] => []

end Text

end OutOfLine
