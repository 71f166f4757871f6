import OutOfLine.Text.Blank

/-! The record of one function declaration. -/

namespace OutOfLine

inductive Storage where
  | static
  | virtual
  deriving DecidableEq

namespace Storage

def keyword : Storage → Text
  | static => "static".toList
  | virtual => "virtual".toList

def ofKeyword? (word : Text) : Option Storage :=
  [static, virtual].find? fun storage => storage.keyword = word

end Storage

/-- A mark written against the name rather than the type. -/
inductive Indirection where
  | pointer
  | reference
  | rvalueReference
  deriving DecidableEq

namespace Indirection

def text : Indirection → Text
  | pointer => ['*']
  | reference => ['&']
  | rvalueReference => ['&', '&']

/-- The name in data. -/
def name : Indirection → String
  | pointer => "pointer"
  | reference => "reference"
  | rvalueReference => "rvalue_reference"

def ofName? (name : String) : Option Indirection :=
  [pointer, reference, rvalueReference].find? fun mark => mark.name = name

end Indirection

/-- Why a declaration cannot be used. -/
inductive Issue where
  /-- A group does not close before the text ends. -/
  | unbalancedContainer
  | missingParameters
  | missingName
  | missingTerminator
  | unterminatedBody
  /-- The name is a keyword that starts a statement. -/
  | keywordName
  /-- A member is initialized with braces. -/
  | braceInitializer
  deriving DecidableEq

namespace Issue

/-- What is said about an issue. -/
def message : Issue → String
  | unbalancedContainer => "unbalanced container"
  | missingParameters => "no parameter list"
  | missingName => "no declaration name"
  | missingTerminator => "no terminator"
  | unterminatedBody => "unterminated body"
  | keywordName => "keyword used as a name"
  | braceInitializer => "braced member initializer"

/-- The name in data. -/
def name : Issue → String
  | unbalancedContainer => "unbalanced_container"
  | missingParameters => "missing_parameters"
  | missingName => "missing_name"
  | missingTerminator => "missing_terminator"
  | unterminatedBody => "unterminated_body"
  | keywordName => "keyword_name"
  | braceInitializer => "brace_initializer"

def all : List Issue :=
  [unbalancedContainer, missingParameters, missingName, missingTerminator, unterminatedBody,
    keywordName, braceInitializer]

def ofName? (name : String) : Option Issue := all.find? fun issue => issue.name = name

end Issue

/-- The parts of a function declaration. -/
structure Declaration where
  storage : Option Storage := none
  /-- The return type starts with `const`, which is not part of `returnType`. -/
  constReturn : Bool := false
  returnType : Text := []
  /-- What stands between the angle brackets after the name. -/
  templateArgs : Option Text := none
  indirection : Option Indirection := none
  name : Text := []
  /-- What stands between the parentheses, as written. -/
  parameters : Text := []
  /-- The words after the parameter list. -/
  addendum : Option Text := none
  /-- The member initializers of a constructor, after the colon. -/
  initializers : Option Text := none
  /-- The inline body with its braces, as written. -/
  body : Option Text := none
  /-- The signature as written, with its semicolon but without the brace of a body. -/
  sourceText : Text := []
  valid : Bool := false
  issue : Option Issue := none
  deriving DecidableEq

namespace Declaration

def hasBody (d : Declaration) : Bool := d.body.isSome

/-- Whether `const` is among the words after the parameter list. -/
def constMember (d : Declaration) : Bool :=
  d.addendum.any fun addendum => addendum.words.contains "const".toList

end Declaration

end OutOfLine
