import OutOfLine.Code
import OutOfLine.Scope.Header

/-! Which named scopes enclose a line. The resolver reads the code tokens of the lines above it,
keeps the open scopes on a stack, and skips blocks of code. -/

namespace OutOfLine

/-- A scope that is open while tokens are read. -/
inductive OpenScope where
  | named (frame : Frame)
  | anonymous
  deriving DecidableEq

def OpenScope.frame? : OpenScope → Option Frame
  | named frame => some frame
  | anonymous => none

/-- A scope keyword on some line that no body follows. -/
structure BodylessHeader where
  line : Nat
  kind : ScopeKind
  deriving DecidableEq

namespace Resolver

/-- What the resolver is reading. -/
inductive Mode where
  | items
  | header (kind : ScopeKind) (state : Header.State)
  /-- A block of code, so many braces deep. -/
  | block (depth : Nat)
  deriving DecidableEq

/-- The state between two tokens. -/
structure State where
  /-- Open scopes around the active one, innermost first. -/
  saved : List OpenScope := []
  active : Option OpenScope := none
  /-- The last token read outside headers and blocks. -/
  previous : Option Token := none
  mode : Mode := .items
  /-- The keywords without a body, latest first. -/
  bodyless : List BodylessHeader := []
  deriving DecidableEq

/-- Saves the active scope, if there is one. -/
def State.save (s : State) : State :=
  { s with saved := s.active.toList ++ s.saved, active := none }

/-- Makes the scope saved last the active one. -/
def State.restore (s : State) : State :=
  { s with active := s.saved.head?, saved := s.saved.tail }

def State.enter (s : State) (scope : OpenScope) : State := { s with active := some scope }

def State.reject (s : State) (kind : ScopeKind) (line : Nat) : State :=
  { s.restore with bodyless := ⟨line, kind⟩ :: s.bodyless }

/-- Goes on after the header of a scope. -/
def State.decide (s : State) (kind : ScopeKind) (line : Nat) : Header.Verdict → State
  | .opened name => { s.enter (.named ⟨kind, name⟩) with mode := .items }
  | .unnamed => { s.enter .anonymous with mode := .items }
  | .block => { s.restore with mode := .block 1 }
  | .rejected => { s.reject kind line with mode := .items }

/-- Reads a token outside headers and blocks. -/
def State.item (s : State) (token : Token) : State :=
  let next := { s with previous := some token }
  match ScopeKind.introducedBy s.previous token with
  | some kind => { next.save with mode := .header kind Header.start }
  | none =>
    if token = .delimiter '}' then next.restore
    else if token = .delimiter '{' then
      if s.previous.any Token.isLiteral then next.save.enter .anonymous
      else { next with mode := .block 1 }
    else next

/-- Reads one token. -/
def State.step (s : State) (placed : Placed) : State :=
  match s.mode with
  | .items => s.item placed.token
  | .header kind state =>
    match state.step placed.token with
    | .inl state => { s with mode := .header kind state }
    | .inr verdict => s.decide kind placed.line.number verdict
  | .block depth =>
    if placed.token = .delimiter '{' then { s with mode := .block (depth + 1) }
    else if placed.token = .delimiter '}' then
      { s with mode := if depth = 1 then .items else .block (depth - 1) }
    else s

/-- Ends reading on a line; a header that is still open has no body. -/
def State.finish (s : State) (line : Nat) : State :=
  match s.mode with
  | .header kind _ => s.reject kind line
  | _ => s

/-- The open scopes that have a name, outermost first. -/
def State.chain (s : State) : Chain :=
  (s.active.toList ++ s.saved).reverse.filterMap OpenScope.frame?

def State.inBlock (s : State) : Bool :=
  match s.mode with
  | .block _ => true
  | _ => false

end Resolver

/-- The named scopes around a line, whether it is inside a block of code, and the scope keywords
above it that no body follows. -/
structure ScopeContext where
  chain : Chain := []
  inBlock : Bool := false
  bodyless : List BodylessHeader := []
  deriving DecidableEq

namespace Document

/-- The resolver after the lines before an index. -/
def resolver (doc : Document) (i : Nat) : Resolver.State :=
  let lines := doc.lines.take i
  let read := (withoutSpaces (codeOfLines false lines)).foldl Resolver.State.step {}
  read.finish lines.length

/-- The scopes around the line at an index; the line itself is not read. -/
def scopeContext (doc : Document) (i : Nat) : ScopeContext :=
  let state := doc.resolver i
  { chain := state.chain, inBlock := state.inBlock, bodyless := state.bodyless.reverse }

end Document

end OutOfLine
