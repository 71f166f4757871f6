import OutOfLine.Scope.Resolver
import OutOfLine.Declaration
import OutOfLine.Text.Quoted

/-! What is reported while a question is answered: typed events, collected in order. -/

namespace OutOfLine

inductive Level where
  | debug
  | info
  | warn
  deriving DecidableEq

namespace Level

def name : Level → String
  | debug => "DEBUG"
  | info => "INFO"
  | warn => "WARN"

def rank : Level → Nat
  | debug => 0
  | info => 1
  | warn => 2

end Level

inductive Event where
  | bodylessHeader (header : BodylessHeader)
  | scopeAbsent (frame : Frame)
  | declarationRejected (issue : Issue) (source : Text)
  | noCounterpart
  | declared (name : Text) (offset : Nat)
  | moved (name : Text) (offset : Nat)
  | bodyNotLocated (line : Nat) (name : Text)
  | configLoaded (path : Text)
  | running (action : String)
  | counterpartMissing (path : Text)
  | updated (path : Text)
  deriving DecidableEq

namespace Event

def level : Event → Level
  | bodyNotLocated _ _ => .warn
  | counterpartMissing _ => .warn
  | updated _ => .info
  | _ => .debug

def message : Event → String
  | bodylessHeader header =>
    "line " ++ toString header.line ++ ": " ++ String.ofList header.kind.keyword ++
      " header without a body"
  | scopeAbsent frame =>
    "no body found for " ++ String.ofList frame.kind.keyword ++ " " ++ String.ofList frame.name
  | declarationRejected issue source =>
    "declaration rejected (" ++ issue.message ++ "): " ++ String.ofList source.quote
  | noCounterpart => "no counterpart file, no intents offered"
  | declared name offset =>
    "declare " ++ String.ofList name ++ " at offset " ++ toString offset
  | moved name offset => "move " ++ String.ofList name ++ " body to offset " ++ toString offset
  | bodyNotLocated line name =>
    "line " ++ toString line ++ ": parsed an inline body for " ++ String.ofList name ++
      " but could not locate it"
  | configLoaded path => "loaded config from " ++ String.ofList path
  | running action => "running " ++ action
  | counterpartMissing path => "no counterpart found for " ++ String.ofList path
  | updated path => "updated " ++ String.ofList path

/-- The line of a log. -/
def line (event : Event) : String := event.level.name ++ " " ++ event.message

end Event

/-- A value and the events reported on the way to it. -/
structure Logged (α : Type) where
  events : List Event
  value : α

namespace Logged

instance : Monad Logged where
  pure a := ⟨[], a⟩
  bind x f :=
    let y := f x.value
    ⟨x.events ++ y.events, y.value⟩

/-- Reports one event. -/
def report (event : Event) : Logged Unit := ⟨[event], ()⟩

end Logged

end OutOfLine
