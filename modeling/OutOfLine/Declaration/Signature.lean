import OutOfLine.Declaration
import OutOfLine.Token

/-! Splitting the tokens of a signature into return type, name and parameters. The split works from
the end: the last parenthesised group holds the parameters, the word before it is the name, and all
before that is the return type. Token sequences named `latest` are held last token first. -/

namespace OutOfLine

structure Signature where
  returnType : Text
  templateArgs : Option Text
  indirection : Option Indirection
  name : Text
  parameters : Text
  /-- The tokens after the parameter group. -/
  trailing : List Token
  initializers : Option Text
  deriving DecidableEq

namespace Signature

/-- Names that start statements. -/
def statementKeywords : List Text :=
  ["if".toList, "else".toList, "for".toList, "while".toList, "do".toList, "switch".toList,
    "case".toList, "return".toList, "catch".toList, "throw".toList, "sizeof".toList,
    "alignof".toList, "decltype".toList, "typeid".toList, "static_assert".toList, "new".toList,
    "delete".toList]

/-- The text of tokens held last first. -/
def textOf (latest : List Token) : Text := Token.concat latest.reverse

/-- Divides tokens at the colon that opens a member initializer list: a colon that is not half of
`::`, stands outside parentheses and follows a closed group. The tokens before it come last first. -/
def splitInitializers (depth : Nat) (closed : Bool) (before : List Token) :
    List Token → Option (List Token × List Token)
  | [] => none
  | t :: rest =>
    match t with
    | .delimiter '(' => splitInitializers (depth + 1) closed (t :: before) rest
    | .delimiter ')' =>
      splitInitializers (depth - 1) (closed || depth - 1 == 0) (t :: before) rest
    | .delimiter ':' =>
      if depth = 0 ∧ closed ∧ before.head? ≠ some (.delimiter ':') ∧
          rest.head? ≠ some (.delimiter ':') then
        some (before, rest)
      else splitInitializers depth closed (t :: before) rest
    | _ => splitInitializers depth closed (t :: before) rest

/-- Reads backwards from inside `depth` groups to the opener of the outermost one: the tokens inside
it and the tokens before it, each last first. -/
def unwind (opener closer : Char) (depth : Nat) :
    List Token → Option (List Token × List Token)
  | [] => none
  | t :: before =>
    if t = .delimiter closer then
      (unwind opener closer (depth + 1) before).map fun parts => (t :: parts.1, parts.2)
    else if t = .delimiter opener then
      if depth = 1 then some ([], before)
      else (unwind opener closer (depth - 1) before).map fun parts => (t :: parts.1, parts.2)
    else (unwind opener closer depth before).map fun parts => (t :: parts.1, parts.2)

/-- Drops the spaces and the `final` between the name and what follows it. -/
def skipFinal (latest : List Token) : List Token :=
  latest.dropWhile fun t => t.isSpace || t == .word "final".toList

/-- Takes the template arguments off the end, if there are any. -/
def takeTemplateArgs (latest : List Token) : Option (Option Text × List Token) :=
  match skipFinal latest with
  | .delimiter '>' :: rest =>
    (unwind '<' '>' 1 rest).map fun parts => (some (textOf parts.1), skipFinal parts.2)
  | rest => some (none, rest)

/-- Takes a reference mark off the front of a name. -/
def takeReference (word : Text) : Option Indirection × Text :=
  match word with
  | '&' :: '&' :: name => (some .rvalueReference, name)
  | '&' :: name => (some .reference, name)
  | name => (none, name)

/-- Splits the tokens of a signature, held last first, that has no member initializers. -/
def ofLatest (latest : List Token) : Except Issue Signature := do
  let trailing := latest.takeWhile (· ≠ .delimiter ')')
  let some group := unwind '(' ')' 1 (latest.drop (trailing.length + 1))
    | throw .missingParameters
  let some (templateArgs, named) := takeTemplateArgs group.2
    | throw .missingName
  match named with
  | .word word :: before =>
    let (reference, name) := takeReference word
    if name.isEmpty then throw .missingName
    if name ∈ statementKeywords then throw .keywordName
    let (indirection, type) := match reference, before with
      | none, .delimiter '*' :: type => (some .pointer, type)
      | reference, type => (reference, type)
    return {
      returnType := (textOf type).trim
      templateArgs
      indirection
      name
      parameters := textOf group.1
      trailing := trailing.reverse
      initializers := none }
  | _ => throw .missingName

/-- Splits the tokens of a signature. -/
def ofTokens (tokens : List Token) : Except Issue Signature :=
  match splitInitializers 0 false [] tokens with
  | some (before, after) => do
    let list := (Token.concat after).trim
    if list.getLast? ≠ some ')' then throw .braceInitializer
    let signature ← ofLatest before
    return { signature with initializers := some list }
  | none => ofLatest tokens.reverse

end Signature

end OutOfLine
