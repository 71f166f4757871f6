import OutOfLine.Code
import OutOfLine.Scope.Header

/-! Where a named scope ends: just after its closing brace, and for a class or struct after the
semicolon that follows. The place is given as the end of the line on which that token stands. -/

namespace OutOfLine

/-- Where a scope ends in a document. -/
inductive Boundary where
  | ends (offset : Nat)
  /-- The scope opens and does not end. -/
  | unclosed
  /-- No scope of this kind and name opens. -/
  | absent
  deriving DecidableEq

def Boundary.offset? : Boundary → Option Nat
  | ends offset => some offset
  | _ => none

namespace Locator

/-- What the locator is reading. -/
inductive State where
  /-- Text around the scope, after a token. -/
  | outside (previous : Option Token)
  /-- The header of a scope of the right kind, after its keyword. -/
  | header (keyword : Token) (state : Header.State)
  /-- A function body that such a header turned out to open. -/
  | block (keyword : Token) (depth : Nat)
  /-- The scope itself, so many braces deep. -/
  | inside (depth : Nat)
  /-- What follows the closing brace of a class or struct. -/
  | terminator
  | done (offset : Nat)
  deriving DecidableEq

/-- Reads one token in search of the end of a scope. -/
def step (frame : Frame) : State → Placed → State
  | .outside previous, placed =>
    if ScopeKind.introducedBy previous placed.token = some frame.kind then
      .header placed.token Header.start
    else .outside (some placed.token)
  | .header keyword state, placed =>
    match state.step placed.token with
    | .inl state => .header keyword state
    | .inr (.opened name) => if name = frame.name then .inside 1 else .outside (some keyword)
    | .inr .block => .block keyword 1
    | .inr _ => .outside (some keyword)
  | .block keyword depth, placed =>
    if placed.token = .delimiter '{' then .block keyword (depth + 1)
    else if placed.token = .delimiter '}' then
      if depth = 1 then .outside (some keyword) else .block keyword (depth - 1)
    else .block keyword depth
  | .inside depth, placed =>
    if placed.token = .delimiter '{' then .inside (depth + 1)
    else if placed.token = .delimiter '}' then
      if depth = 1 then
        if frame.kind.needsTerminator then .terminator else .done placed.line.stop
      else .inside (depth - 1)
    else .inside depth
  | .terminator, placed =>
    if placed.token = .delimiter ';' then .done placed.line.stop else .terminator
  | .done offset, _ => .done offset

/-- The answer when the document ends. -/
def State.boundary : State → Boundary
  | .outside _ => .absent
  | .header _ _ => .absent
  | .block _ _ => .absent
  | .inside _ => .unclosed
  | .terminator => .unclosed
  | .done offset => .ends offset

end Locator

/-- Where the first scope of this kind and name ends. -/
def Document.boundary (doc : Document) (frame : Frame) : Boundary :=
  ((withoutSpaces (codeOfLines false doc.lines)).foldl (Locator.step frame)
    (.outside none)).boundary

end OutOfLine
