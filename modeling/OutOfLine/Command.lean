import OutOfLine.CommandLine
import OutOfLine.Config.PlainFile
import OutOfLine.FileSystem
import OutOfLine.JsonValue
import OutOfLine.Plan

/-! Running commands on a directory tree: what is printed, what is logged, and which files change. -/

namespace OutOfLine

/-- Why a command fails. -/
inductive Trouble where
  | configUnreadable (path : Text) (error : FileError)
  | configMalformed (path : Text)
  | configInvalid (path : Text) (error : Error)
  | unreadable (path : Text) (error : FileError)
  | nothingToParse
  | noRole (path : Text)
  | misplaced (error : Error)
  | notApplicable (path : Text) (error : Error)
  | unwritable (path : Text) (error : FileError)
  /-- An extension with a slash in it cannot be tried. -/
  | malformedExtension (path : Text)
  deriving DecidableEq

namespace Trouble

/-- What went wrong, followed by its causes. -/
def messages : Trouble → List String
  | configUnreadable path error =>
    ["Failed to read config " ++ String.ofList path, error.message]
  | configMalformed path => ["Invalid config " ++ String.ofList path, "TOML parse error"]
  | configInvalid path error => ["Invalid config " ++ String.ofList path, error.message]
  | unreadable path error =>
    ["Failed to read " ++ String.ofList path, "IO error: " ++ error.message, error.message]
  | nothingToParse => ["Provide FILE --line N or --text", Error.missingSource.message]
  | noRole path => [String.ofList path ++ " is neither a header nor a source file"]
  | misplaced error => [error.message]
  | notApplicable path error => ["Cannot apply to " ++ String.ofList path, error.message]
  | unwritable path error => ["Failed to write " ++ String.ofList path, error.message]
  | malformedExtension path =>
    ["Cannot pair " ++ String.ofList path, "extension cannot contain path separators"]

def exitCode : Trouble → Nat
  | malformedExtension _ => 101
  | _ => 1

/-- The causes in a report, numbered if there are several. -/
def causeLines : List String → List String
  | [cause] => ["    " ++ cause ++ "\n"]
  | causes => causes.zipIdx.map fun item => "    " ++ toString item.2 ++ ": " ++ item.1 ++ "\n"

/-- The report of a failed command. -/
def report (trouble : Trouble) : String :=
  match trouble.messages with
  | [] => ""
  | [message] => "Error: " ++ message ++ "\n"
  | message :: causes =>
    "Error: " ++ message ++ "\n\nCaused by:\n" ++ String.join (causeLines causes)

end Trouble

/-- A part of a command: it may fail, and it reports events either way. -/
abbrev Task (α : Type) := ExceptT Trouble Logged α

/-- The answer of a command, as printed for people and as data. -/
structure Reply where
  text : String
  data : JsonValue

/-- What a command wants to happen: an answer, and files with new texts. -/
structure Effect where
  reply : Reply
  writes : List (Text × Text) := []

namespace Command

open JsonValue (ofOption ofString)

def liftLog {α : Type} (logged : Logged α) : Task α := ExceptT.lift logged

def checked {α : Type} (trouble : Error → Trouble) : Except Error α → Task α
  | .ok a => pure a
  | .error e => throw (trouble e)

def readDocument (fs : FileSystem) (path : Text) : Task Document :=
  match fs.read path with
  | .ok text => pure ⟨text⟩
  | .error error => throw (.unreadable path error)

def frameData (frame : Frame) : JsonValue :=
  .obj [("kind", .str frame.kind.keyword), ("name", .str frame.name)]

def declarationData (d : Declaration) : JsonValue :=
  .obj [
    ("addendum", ofOption .str d.addendum),
    ("body", ofOption .str d.body),
    ("initializers", ofOption .str d.initializers),
    ("is_const_return", .bool d.constReturn),
    ("is_valid", .bool d.valid),
    ("issue", ofOption (fun issue => ofString issue.name) d.issue),
    ("name", .str d.name),
    ("parameters", .str d.parameters),
    ("pointer_or_ref", ofOption (fun mark => ofString mark.name) d.indirection),
    ("return_type", .str d.returnType),
    ("source_text", .str d.sourceText),
    ("storage", ofOption (fun storage => .str storage.keyword) d.storage),
    ("template_args", ofOption .str d.templateArgs)]

def line (label : String) (value : Text) : String := label ++ String.ofList value ++ "\n"

/-- A declaration for people; a dash stands for a part that is missing. -/
def declarationText (d : Declaration) : String :=
  let optional := fun (value : Option Text) => value.getD ['-']
  let truth := fun (value : Bool) => (toString value).toList
  line "valid:       " (truth d.valid) ++
    (d.issue.elim "" fun issue => line "issue:       " issue.message.toList) ++
    line "storage:     " (optional (d.storage.map Storage.keyword)) ++
    line "const:       " (truth d.constReturn) ++
    line "return type: " d.returnType ++
    line "indirection: " (optional (d.indirection.map Indirection.text)) ++
    line "name:        " d.name ++
    line "template:    " (optional d.templateArgs) ++
    line "parameters:  " d.parameters ++
    line "addendum:    " (optional d.addendum) ++
    line "init list:   " (optional d.initializers) ++
    (d.body.elim "" fun body => line "body:\n" body)

/-- The scopes around a line and the access label in force there. -/
def runScopes (fs : FileSystem) (file : Text) (number : Nat) : Task Effect := do
  let doc ← readDocument fs file
  let i ← checked .misplaced (doc.cursor number)
  let context := doc.scopeContext i
  liftLog ⟨context.bodyless.map .bodylessHeader, ()⟩
  let chain := context.chain
  let access := doc.accessAt i
  let frames := chain.map fun frame =>
    String.ofList frame.kind.keyword ++ " " ++ String.ofList frame.name ++ "\n"
  let text := (if chain.isEmpty then "(global scope)\n" else String.join frames) ++
    access.elim "" fun access => line "access: " access.keyword
  let data : JsonValue := .obj [
    ("access", ofOption (fun access => .str access.keyword) access),
    ("chain", .arr (chain.map frameData)),
    ("line", .num (i + 1)),
    ("qualifier", .str (chain.qualifier "::".toList))]
  return { reply := ⟨text, data⟩ }

/-- The record of a declaration. -/
def runParse (fs : FileSystem) (input : ParseInput) : Task Effect := do
  let d ← match input with
    | .literal text => pure (Declaration.parse text)
    | .line file number => do
      let doc ← readDocument fs file
      pure (.parseAt doc (← checked .misplaced (doc.cursor number)))
    | .nothing => throw .nothingToParse
  let d ← liftLog (Site.examine d)
  return { reply := ⟨declarationText d, declarationData d⟩ }

/-- The end of a scope. -/
def runBoundary (fs : FileSystem) (file : Text) (frame : Frame) : Task Effect := do
  let doc ← readDocument fs file
  let offset ← liftLog (Site.locateScope doc frame)
  let text := offset.elim "not found\n" fun offset => toString offset ++ "\n"
  let data : JsonValue := .obj [("frame", frameData frame), ("offset", ofOption .num offset)]
  return { reply := ⟨text, data⟩ }

/-- A file, its role and the file that pairs with it. -/
structure Workspace where
  role : FileRole
  active : Document
  counterpart : Option (Text × Document)

/-- Reads a file and its pair. -/
def load (fs : FileSystem) (config : Config) (file : Text) : Task Workspace := do
  let some role := FileRole.ofPath? config file | throw (.noRole file)
  let active ← readDocument fs file
  match (Pairing.ofPath config file fs.contains).2 with
  | .found path => return ⟨role, active, some (path, ← readDocument fs path)⟩
  | .missing =>
    liftLog (Logged.report (.counterpartMissing file))
    return ⟨role, active, none⟩
  | .malformed => throw (.malformedExtension file)

/-- A line of a file that was read with its pair. -/
def Workspace.site (workspace : Workspace) (config : Config) (i : Nat) : Site :=
  { role := workspace.role
    active := workspace.active
    line := i
    counterpart := workspace.counterpart.map Prod.snd
    counterpartName := ((workspace.counterpart.map Prod.fst).bind Path.fileName?).getD []
    config }

def runIntents (fs : FileSystem) (config : Config) (file : Text) (number : Nat) : Task Effect := do
  let workspace ← load fs config file
  let i ← checked .misplaced (workspace.active.cursor number)
  let plans ← liftLog (workspace.site config i).available
  let lines := plans.map fun plan =>
    String.ofList plan.intent.name ++ "\t" ++ String.ofList plan.caption ++ "\n"
  let text := if plans.isEmpty then "no intents available\n" else String.join lines
  let items := plans.map fun plan =>
    JsonValue.obj [("caption", .str plan.caption), ("intent", .str plan.intent.name)]
  let data : JsonValue := .obj [("intents", .arr items), ("line", .num (i + 1))]
  return { reply := ⟨text, data⟩ }

def editData (edit : Edit) : JsonValue :=
  .obj [("end", .num edit.stop), ("replacement", .str edit.replacement),
    ("start", .num edit.start), ("target", ofString edit.target.name)]

def planData (plan : Plan) : JsonValue :=
  .obj [("caption", .str plan.caption), ("edits", .arr (plan.edits.map editData)),
    ("intent", .str plan.intent.name)]

/-- The new text of a file, if a plan touches it. -/
def edited (plan : Plan) (target : EditTarget) (path : Text) (doc : Document) :
    List (Text × Text) :=
  if plan.touches target then [(path, (plan.applyTo target doc.text).getD doc.text)] else []

/-- A file for people: its path and its text, which ends with a newline. -/
def fileText (file : Text × Text) : String :=
  line "--- " file.1 ++ String.ofList file.2 ++
    if file.2.getLast? = some '\n' then "" else "\n"

def runApply (fs : FileSystem) (config : Config) (intent : Intent) (file : Text) (number : Nat)
    (write : Bool) : Task Effect := do
  let workspace ← load fs config file
  let i ← checked .misplaced (workspace.active.cursor number)
  let plan ← checked (.notApplicable file) (← liftLog ((workspace.site config i).plan? intent))
  let files := edited plan .active file workspace.active ++
    workspace.counterpart.toList.flatMap fun pair => edited plan .counterpart pair.1 pair.2
  let items := files.map fun file => JsonValue.obj [("path", .str file.1), ("text", .str file.2)]
  let data : JsonValue :=
    .obj [("files", .arr items), ("plan", planData plan), ("written", .bool write)]
  let text := if write then "" else String.join (files.map fileText)
  return { reply := ⟨text, data⟩, writes := if write then files else [] }

def run (fs : FileSystem) (config : Config) : Command → Task Effect
  | .scopes file number => runScopes fs file number
  | .parse input => runParse fs input
  | .boundary file frame => runBoundary fs file frame
  | .intents file number => runIntents fs config file number
  | .apply intent file number write => runApply fs config intent file number write

/-- The files that a command reads, and those that it looks for. -/
def files (config : Config) : Command → List Text
  | .scopes file _ => [file]
  | .parse (.line file _) => [file]
  | .parse _ => []
  | .boundary file _ => [file]
  | .intents file _ => file :: (Pairing.ofPath config file fun _ => false).1
  | .apply _ file _ _ => file :: (Pairing.ofPath config file fun _ => false).1

/-- The configuration file that is used when none is named and it is there. -/
def defaultConfigPath : Text := ".cpp-toolkit.toml".toList

/-- Reads the configuration. -/
def loadConfig (read : ConfigFile.Reader) (fs : FileSystem) (explicit : Option Text) : Task Config := do
  let implicit := if fs.isFile defaultConfigPath then some defaultConfigPath else none
  let some path := explicit <|> implicit | return {}
  let text ← match fs.read path with
    | .ok text => pure text
    | .error error => throw (.configUnreadable path error)
  let some config := ConfigFile.parse read text | throw (.configMalformed path)
  let config ← checked (.configInvalid path) config.validate
  liftLog (Logged.report (.configLoaded path))
  return config

end Command

/-- What a command prints. -/
inductive Output where
  | text (text : String)
  | data (value : JsonValue)

/-- The characters that are printed. -/
def Output.print : Output → String
  | text printed => printed
  | data value => String.ofList (value.pretty 0) ++ "\n"

/-- How a command line ends. -/
structure Outcome where
  exitCode : Nat
  output : Output
  /-- The report of a failure, when it is not part of the output. -/
  errors : Option String := none
  log : List Event := []
  files : FileSystem

namespace Invocation

/-- The least important level that is logged. -/
def threshold (invocation : Invocation) : Level :=
  if invocation.quiet || invocation.json then .warn
  else if invocation.verbose then .debug
  else .info

/-- Writes files one after the other until one of them fails. -/
def writeAll (fs : FileSystem) : List (Text × Text) → FileSystem × Logged (Except Trouble Unit)
  | [] => (fs, ⟨[], .ok ()⟩)
  | (path, text) :: rest =>
    match fs.write path text with
    | .error error => (fs, ⟨[], .error (.unwritable path error)⟩)
    | .ok fs =>
      let result := writeAll fs rest
      (result.1, ⟨.updated path :: result.2.events, result.2.value⟩)

/-- What the command wants to happen. -/
def effect (invocation : Invocation) (read : ConfigFile.Reader) (fs : FileSystem) : Task Effect := do
  let config ← Command.loadConfig read fs invocation.config
  Command.liftLog (Logged.report (.running invocation.command.action))
  invocation.command.run fs config

def envelope (invocation : Invocation) (status : String) (message : List (String × JsonValue))
    (data : JsonValue) : JsonValue :=
  .obj ([("status", .ofString status), ("action", .ofString invocation.command.action)] ++ message ++
    [("data", data)])

def succeed (invocation : Invocation) (reply : Reply) (files : FileSystem) : Outcome :=
  let output := if invocation.json then .data (invocation.envelope "ok" [] reply.data)
    else .text reply.text
  { exitCode := 0, output, files }

def fail (invocation : Invocation) (trouble : Trouble) (files : FileSystem) : Outcome :=
  if invocation.json then
    let message := String.intercalate ": " trouble.messages
    { exitCode := trouble.exitCode
      output := .data (invocation.envelope "error" [("message", .ofString message)] .null)
      files }
  else
    { exitCode := trouble.exitCode, output := .text "", errors := some trouble.report, files }

/-- Runs a command on a directory tree, with a reader of its configuration file. -/
def run (invocation : Invocation) (read : ConfigFile.Reader) (fs : FileSystem) : Outcome :=
  let effect := invocation.effect read fs
  let (outcome, events) := match effect.run.value with
    | .error trouble => (invocation.fail trouble fs, [])
    | .ok wanted =>
      let (files, written) := writeAll fs wanted.writes
      match written.value with
      | .error trouble => (invocation.fail trouble files, written.events)
      | .ok () => (invocation.succeed wanted.reply files, written.events)
  let log := (effect.run.events ++ events).filter fun event =>
    invocation.threshold.rank ≤ event.level.rank
  { outcome with log }

end Invocation

/-- Runs a command line on a directory tree whose configuration file is a plain one. -/
def runCommandLine (fs : FileSystem) (arguments : List Text) : Outcome :=
  match CommandLine.read arguments with
  | .ok invocation => invocation.run ConfigFile.readPlain fs
  | .error .misuse =>
    { exitCode := 2, output := .text "", errors := some CommandLine.usage, files := fs }
  | .error .version => { exitCode := 0, output := .text "cpp-toolkit 0.1.1\n", files := fs }
  | .error .help => { exitCode := 0, output := .text CommandLine.usage, files := fs }

end OutOfLine
