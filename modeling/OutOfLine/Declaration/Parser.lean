import OutOfLine.Code
import OutOfLine.Declaration.Signature

/-! Reading a declaration from code tokens, spaces included. The reader moves forward through its
stages and stands still once it is done, so what follows a declaration cannot change its record. -/

namespace OutOfLine

/-- The group that is open in a signature: the bracket that opened it and how often that bracket is
open. Brackets of the other kind inside it do not count. -/
structure Group where
  angle : Bool
  depth : Nat
  deriving DecidableEq

namespace Group

def opener (g : Group) : Char := if g.angle then '<' else '('

def closer (g : Group) : Char := if g.angle then '>' else ')'

/-- The open group after one more token. -/
def feed (group : Option Group) (token : Token) : Option Group :=
  match group with
  | none =>
    if token = .delimiter '<' then some ⟨true, 1⟩
    else if token = .delimiter '(' then some ⟨false, 1⟩
    else none
  | some g =>
    if token = .delimiter g.opener then some { g with depth := g.depth + 1 }
    else if token = .delimiter g.closer then
      if g.depth ≤ 1 then none else some { g with depth := g.depth - 1 }
    else some g

end Group

/-- A token that ends a signature outside groups. -/
inductive Terminator where
  | const
  | brace
  | semicolon
  | assign
  deriving DecidableEq

def Terminator.ofToken? : Token → Option Terminator
  | .word text => if text = "const".toList then some .const else none
  | .delimiter '{' => some .brace
  | .delimiter ';' => some .semicolon
  | .delimiter '=' => some .assign
  | _ => none

namespace Draft

inductive Stage where
  | storage
  | constReturn
  | type (group : Option Group)
  | addendum
  /-- In the body, so many braces deep. -/
  | body (depth : Nat)
  | done
  deriving DecidableEq

def afterTerminator : Terminator → Stage
  | .const => .addendum
  | .brace => .body 1
  | .semicolon => .done
  | .assign => .done

end Draft

/-- A declaration being read. Token sequences are held last token first. -/
structure Draft where
  stage : Draft.Stage := .storage
  storage : Option Storage := none
  constReturn : Bool := false
  /-- The tokens of the signature after storage and `const`. -/
  type : List Token := []
  /-- The parts of the signature, once it has ended. -/
  signature : Option (Except Issue Signature) := none
  addendum : List Token := []
  body : Option (List Token) := none
  source : List Token := []

namespace Draft

def addSource (d : Draft) (token : Token) : Draft := { d with source := token :: d.source }

/-- Takes in the token that ends the signature or its addendum. -/
def terminate (d : Draft) (terminator : Terminator) (token : Token) : Draft :=
  let d := { d with stage := afterTerminator terminator }
  match terminator with
  | .const =>
    let gap := if (Signature.textOf d.addendum).isBlank then [] else [.space ' ']
    { d.addSource token with addendum := token :: gap ++ d.addendum }
  | .semicolon => d.addSource token
  | .brace => { d with body := some [token] }
  | .assign => d

/-- Ends the signature and splits it. -/
def endSignature (d : Draft) (terminator : Terminator) (token : Token) : Draft :=
  let signature := Signature.ofTokens d.type.reverse
  let addendum := match signature with
    | .ok signature => signature.trailing.reverse
    | .error _ => []
  terminate { d with signature := some signature, addendum } terminator token

/-- Reads a token of the signature. -/
def feedType (d : Draft) (group : Option Group) (token : Token) : Draft :=
  let group := Group.feed group token
  match group, Terminator.ofToken? token with
  | none, some terminator => d.endSignature terminator token
  | _, _ => { d.addSource token with stage := .type group, type := token :: d.type }

/-- Reads a token where `const` may start the return type. -/
def feedConstReturn (d : Draft) (token : Token) : Draft :=
  if token.isSpace then d.addSource token
  else if token = .word "const".toList then
    { d.addSource token with stage := .type none, constReturn := true }
  else d.feedType none token

/-- Reads a token where the storage may stand. -/
def feedStorage (d : Draft) (token : Token) : Draft :=
  if token.isSpace then d.addSource token
  else match token with
    | .word text =>
      match Storage.ofKeyword? text with
      | some storage => { d.addSource token with stage := .constReturn, storage := some storage }
      | none => d.feedConstReturn token
    | _ => d.feedConstReturn token

/-- Reads one token. -/
def feed (d : Draft) (token : Token) : Draft :=
  match d.stage with
  | .storage => d.feedStorage token
  | .constReturn => d.feedConstReturn token
  | .type group => d.feedType group token
  | .addendum =>
    match Terminator.ofToken? token with
    | none => { d.addSource token with addendum := token :: d.addendum }
    | some .const => { d.addSource token with addendum := token :: d.addendum }
    | some terminator => d.terminate terminator token
  | .body depth =>
    let stage := if token = .delimiter '{' then .body (depth + 1)
      else if token = .delimiter '}' then if depth = 1 then .done else .body (depth - 1)
      else .body depth
    { d with stage, body := d.body.map (token :: ·) }
  | .done => d

/-- The issue of a declaration whose signature has not ended. -/
def openIssue (d : Draft) : Issue :=
  match d.stage with
  | .type (some _) => .unbalancedContainer
  | _ => .missingTerminator

/-- The record of what was read. -/
def finish (d : Draft) : Declaration :=
  let record : Declaration :=
    { storage := d.storage
      constReturn := d.constReturn
      sourceText := Signature.textOf d.source }
  match d.signature with
  | none => { record with issue := some d.openIssue }
  | some (.error issue) => { record with issue := some issue }
  | some (.ok signature) =>
    let words := (Signature.textOf d.addendum).words
    let ended := match d.stage with
      | .body _ => false
      | _ => true
    { record with
      returnType := signature.returnType
      templateArgs := signature.templateArgs
      indirection := signature.indirection
      name := signature.name
      parameters := signature.parameters
      addendum := if words.isEmpty then none else some (Text.join [' '] words)
      initializers := signature.initializers
      body := d.body.map Signature.textOf
      valid := ended
      issue := bif ended then none else some .unterminatedBody }

end Draft

namespace Declaration

/-- Reads a declaration from code tokens. -/
def ofTokens (tokens : List Token) : Declaration := (tokens.foldl Draft.feed {}).finish

/-- Reads the declaration at the start of a text. -/
def parse (text : Text) : Declaration := ofTokens text.code

/-- Reads the declaration that starts at a line of a document. -/
def parseAt (doc : Document) (i : Nat) : Declaration :=
  ofTokens ((codeOfLines false (doc.linesFrom i)).map Placed.token)

end Declaration

end OutOfLine
