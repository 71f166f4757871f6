/-! Classes of characters given by ranges of code points. -/

namespace OutOfLine

/-- Ranges of code points, both ends included. -/
abbrev CharClass := List (Nat × Nat)

def CharClass.has (ranges : CharClass) (c : Char) : Bool :=
  ranges.any fun range => range.1 ≤ c.toNat && c.toNat ≤ range.2

end OutOfLine
