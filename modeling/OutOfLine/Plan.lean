import OutOfLine.Declaration.Parser
import OutOfLine.Definition
import OutOfLine.Edit
import OutOfLine.Error
import OutOfLine.Log
import OutOfLine.Scope.Boundary
import OutOfLine.Statement

/-! Plans: the edits that carry out an intent at a line of a file. Nothing is changed until a plan is
applied to the two texts. -/

namespace OutOfLine

structure Plan where
  intent : Intent
  caption : Text
  edits : List Edit
  deriving DecidableEq

namespace Plan

/-- Whether the plan changes a file. -/
def touches (plan : Plan) (target : EditTarget) : Bool :=
  plan.edits.any fun edit => edit.target = target

/-- The text of a file after the plan. -/
def applyTo (plan : Plan) (target : EditTarget) (text : Text) : Option Text :=
  applyEdits target plan.edits text

end Plan

/-- A line of a file, the file that pairs with it, and how to write definitions. -/
structure Site where
  role : FileRole
  active : Document
  /-- The index of the line. -/
  line : Nat
  counterpart : Option Document
  counterpartName : Text
  config : Config

namespace Site

/-- The scopes around the line. -/
def scopes (site : Site) : Logged ScopeContext :=
  let context := site.active.scopeContext site.line
  ⟨context.bodyless.map .bodylessHeader, context⟩

/-- Reports a record that has an issue. -/
def examine (d : Declaration) : Logged Declaration :=
  ⟨d.issue.toList.map fun issue => .declarationRejected issue d.sourceText.trim, d⟩

/-- The boundary of a scope in a document. -/
def locateScope (doc : Document) (frame : Frame) : Logged (Option Nat) :=
  match doc.boundary frame with
  | .ends offset => ⟨[], some offset⟩
  | .unclosed => ⟨[], none⟩
  | .absent => ⟨[.scopeAbsent frame], none⟩

/-- The end of the first of some scopes that ends in a document, or else the end of the document. -/
def firstEnd (doc : Document) : List Frame → Logged Nat
  | [] => pure doc.size
  | frame :: rest => do
    match ← locateScope doc frame with
    | some offset => return offset
    | none => firstEnd doc rest

/-- Where a definition goes: after the innermost scope of the chain that the document defines. -/
def insertionPoint (doc : Document) (chain : Chain) : Logged Nat := firstEnd doc chain.reverse

/-- Whether a name is that of the constructor or destructor of the innermost class. -/
def isStructor (name : Text) (chain : Chain) : Bool :=
  chain.innermost?.any fun frame =>
    frame.kind ≠ .namespaceScope &&
      (name = frame.name.lastSegment || name = '~' :: frame.name.lastSegment)

/-- Whether a record is that of a function that can be defined outside its class. Friends are not
members, and only constructors and destructors go without a return type. -/
def definable (d : Declaration) (chain : Chain) : Bool :=
  d.valid && !d.returnType.words.contains "friend".toList &&
    (!(Declaration.withoutSpecifiers d.returnType).isEmpty || isStructor d.name chain)

/-- The insertion of a definition into the paired file. -/
def insertion (config : Config) (offset : Nat) (definition : Text) : Edit :=
  ⟨.counterpart, offset, offset, config.definitionSpacing ++ definition ++ ['\n']⟩

def plan (site : Site) (intent : Intent) (edits : List Edit) : Plan :=
  ⟨intent, intent.caption site.counterpartName, edits⟩

/-- The plan that writes an empty definition for a declaration which ends in a semicolon. -/
def declareInSource (site : Site) (counterpart : Document) : Logged (Option Plan) := do
  let scope ← site.scopes
  if scope.inBlock then return none
  let statement := site.active.statementAt site.line site.config.maxStatementLines
  let d ← examine (.parse statement)
  if !definable d scope.chain || d.hasBody || d.sourceText.getLast? ≠ some ';' then return none
  let offset ← insertionPoint counterpart scope.chain
  Logged.report (.declared d.name offset)
  let definition := d.definitionIn scope.chain site.config none
  return some (site.plan .declareInSource [insertion site.config offset definition])

/-- The end of the signature of a declaration whose body starts at an offset; the blanks before the
body or before the member initializers do not belong to it. -/
def signatureEnd? (site : Site) (d : Declaration) (bodyStart : Nat) : Option Nat := do
  let headEnd ← match d.initializers with
    | some _ => site.active.initializerStart site.line
    | none => some bodyStart
  let head ← site.active.text.splitAtByte? headEnd
  return head.1.trimEnd.byteLength

/-- The plan that leaves a semicolon for an inline body and writes the definition with that body. -/
def moveImplementation (site : Site) (counterpart : Document) : Logged (Option Plan) := do
  let scope ← site.scopes
  if scope.inBlock then return none
  let d ← examine (.parseAt site.active site.line)
  if !definable d scope.chain || !d.hasBody then return none
  match site.active.bodyRange site.line with
  | none =>
    Logged.report (.bodyNotLocated (site.line + 1) d.name)
    return none
  | some (start, stop) =>
    match site.signatureEnd? d start, site.active.text.slice? start stop with
    | some signatureEnd, some body =>
      let offset ← insertionPoint counterpart scope.chain
      Logged.report (.moved d.name offset)
      let definition := d.definitionIn scope.chain site.config (some body)
      return some (site.plan .moveImplementationToSource
        [⟨.active, signatureEnd, stop, [';']⟩, insertion site.config offset definition])
    | _, _ => return none

/-- The plan of an intent that is offered in files of this role. -/
def handle (site : Site) (counterpart : Document) : Intent → Logged (Option Plan)
  | .declareInSource => site.declareInSource counterpart
  | .moveImplementationToSource => site.moveImplementation counterpart

/-- The plans of some intents, as far as they have one. -/
def handleAll (site : Site) (counterpart : Document) : List Intent → Logged (List Plan)
  | [] => pure []
  | intent :: rest => do
    let plan ← site.handle counterpart intent
    let plans ← handleAll site counterpart rest
    return plan.toList ++ plans

/-- The plans of all intents that apply at the line. -/
def available (site : Site) : Logged (List Plan) :=
  match site.counterpart with
  | none => do
    Logged.report .noCounterpart
    return []
  | some counterpart => site.handleAll counterpart (Intent.offeredIn site.role)

/-- The plan of one intent. The role is checked first, then the paired file. -/
def plan? (site : Site) (intent : Intent) : Logged (Except Error Plan) :=
  if intent ∉ Intent.offeredIn site.role then
    return .error (.intentUnavailable intent (.notOffered site.role))
  else match site.counterpart with
    | none => return .error .missingSource
    | some counterpart => do
      match ← site.handle counterpart intent with
      | some plan => return .ok plan
      | none => return .error (.intentUnavailable intent (.noDeclaration (site.line + 1)))

end Site

end OutOfLine
