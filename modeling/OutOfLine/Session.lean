import OutOfLine.Plan

/-! A pair of files that is edited step by step. -/

namespace OutOfLine

structure Session where
  active : Document
  counterpart : Document
  /-- The role of the active file. -/
  role : FileRole
  config : Config

namespace Session

/-- Goes over to the other file. -/
def swap (s : Session) : Session :=
  { s with active := s.counterpart, counterpart := s.active, role := s.role.counterpart }

/-- A line of the active file. -/
def site (s : Session) (line : Nat) : Site :=
  { role := s.role
    active := s.active
    line
    counterpart := some s.counterpart
    counterpartName := "pair".toList
    config := s.config }

/-- The qualifier of a line of the active file and the access label in force there. -/
def scopes (s : Session) (number : Nat) : Except Error (Text × Option Access) := do
  let line ← s.active.cursor number
  let chain := (s.active.scopeContext line).chain
  return (chain.qualifier s.config.scopeSeparator, s.active.accessAt line)

/-- The captions of the intents that apply at a line. -/
def available (s : Session) (number : Nat) : Except Error (List Text) := do
  let line ← s.active.cursor number
  return (s.site line).available.value.map Plan.caption

/-- Carries out an intent at a line of the active file. -/
def apply (s : Session) (number : Nat) (intent : Intent) : Except Error Session := do
  let line ← s.active.cursor number
  let plan ← ((s.site line).plan? intent).value
  let edited (target : EditTarget) (doc : Document) : Document :=
    ⟨(plan.applyTo target doc.text).getD doc.text⟩
  return { s with
    active := edited .active s.active
    counterpart := edited .counterpart s.counterpart }

end Session

end OutOfLine
