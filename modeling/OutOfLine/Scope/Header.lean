import OutOfLine.Scope

/-! Scope headers: what stands between a scope keyword and the brace that opens the scope. The
reader takes one token at a time and ends as soon as the header is decided. -/

namespace OutOfLine

namespace Header

/-- How a header ends. -/
inductive Verdict where
  /-- A brace opens a scope of this name. -/
  | opened (name : Text)
  /-- A brace opens a scope without a name. -/
  | unnamed
  /-- A brace opens a function body. -/
  | block
  /-- There is no scope here. -/
  | rejected
  deriving DecidableEq

/-- The part of a header before its base list. -/
structure Naming where
  /-- The last word outside groups, with the words that `::` ties it to. -/
  name : Option Text := none
  parens : Nat := 0
  angles : Nat := 0
  /-- A `::` was read, and the next word extends the name. -/
  qualified : Bool := false
  /-- A parenthesised group was closed, and only qualifiers have followed. -/
  afterGroup : Bool := false
  deriving DecidableEq

def Naming.nested (h : Naming) : Bool := 0 < h.parens || 0 < h.angles

/-- Where a header reader stands. -/
inductive State where
  | naming (h : Naming)
  /-- After a colon outside groups. -/
  | colon (h : Naming)
  /-- In the base list of a scope. -/
  | bases (name : Option Text)
  deriving DecidableEq

def start : State := .naming {}

/-- Words after a parameter group that leave it a function header. -/
def signatureQualifiers : List Text :=
  ["const".toList, "noexcept".toList, "override".toList, "final".toList, "volatile".toList]

def opening (name : Option Text) : Verdict := name.elim .unnamed .opened

/-- Reads a word outside groups. -/
def Naming.addWord (h : Naming) (text : Text) : Naming :=
  if text = "final".toList ∨ (h.afterGroup ∧ text ∈ signatureQualifiers) then h
  else
    let name := match h.name, h.qualified with
      | some outer, true => outer ++ [':', ':'] ++ text
      | _, _ => text
    { h with name, qualified := false, afterGroup := false }

/-- Reads a token before the base list. -/
def Naming.step (h : Naming) (token : Token) : State ⊕ Verdict :=
  match token with
  | .delimiter '(' => .inl (.naming { h with parens := h.parens + 1 })
  | .delimiter ')' =>
    if h.parens = 0 then .inr .rejected
    else
      let parens := h.parens - 1
      .inl (.naming { h with parens, afterGroup := h.afterGroup || (parens == 0 && h.angles == 0) })
  | .delimiter '<' => .inl (.naming { h with angles := h.angles + 1 })
  | .delimiter '>' =>
    if h.angles = 0 then .inr .rejected else .inl (.naming { h with angles := h.angles - 1 })
  | _ =>
    if h.nested then .inl (.naming h)
    else match token with
      | .delimiter '{' => .inr (if h.afterGroup then .block else opening h.name)
      | .delimiter ';' => .inr .rejected
      | .delimiter '=' => .inr .rejected
      | .delimiter ':' => .inl (.colon h)
      | .word text => if ',' ∈ text then .inr .rejected else .inl (.naming (h.addWord text))
      | _ => .inl (.naming h)

/-- Reads a token of a base list. -/
def stepBases (name : Option Text) (token : Token) : State ⊕ Verdict :=
  match token with
  | .delimiter '{' => .inr (opening name)
  | .delimiter ';' => .inr .rejected
  | _ => .inl (.bases name)

/-- Reads one token of a header. -/
def State.step : State → Token → State ⊕ Verdict
  | .naming h, token => h.step token
  | .colon h, token =>
    if token = .delimiter ':' then .inl (.naming { h with qualified := true })
    else stepBases h.name token
  | .bases name, token => stepBases name token

end Header

end OutOfLine
