import OutOfLine.Token

/-! Named scopes and chains of them. -/

namespace OutOfLine

inductive ScopeKind where
  | classScope
  | structScope
  | namespaceScope
  deriving DecidableEq

namespace ScopeKind

/-- The keyword that introduces a scope of this kind. -/
def keyword : ScopeKind → Text
  | classScope => "class".toList
  | structScope => "struct".toList
  | namespaceScope => "namespace".toList

def ofKeyword? (word : Text) : Option ScopeKind :=
  [classScope, structScope, namespaceScope].find? fun kind => kind.keyword = word

/-- A class or struct ends with a semicolon after its brace, a namespace with the brace. -/
def needsTerminator : ScopeKind → Bool
  | classScope => true
  | structScope => true
  | namespaceScope => false

/-- The kind of scope that a token introduces. A keyword after `using` introduces none. -/
def introducedBy (previous : Option Token) (token : Token) : Option ScopeKind :=
  if previous = some (.word "using".toList) then none
  else match token with
    | .word text => ofKeyword? text
    | _ => none

end ScopeKind

/-- A scope with its name as written, `::` included. -/
structure Frame where
  kind : ScopeKind
  name : Text
  deriving DecidableEq

/-- Enclosing scopes, outermost first. -/
abbrev Chain := List Frame

/-- The names of the scopes, each followed by the separator. -/
def Chain.qualifier (separator : Text) (chain : Chain) : Text :=
  chain.flatMap fun frame => frame.name ++ separator

def Chain.innermost? (chain : Chain) : Option Frame := chain.getLast?

end OutOfLine
