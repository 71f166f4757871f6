import OutOfLine.Config
import OutOfLine.Declaration
import OutOfLine.Parameters
import OutOfLine.Scope

/-! Writing a declaration as a definition outside its class. -/

namespace OutOfLine

namespace Declaration

/-- Qualifiers that stand only inside the class. -/
def classOnlyQualifiers : List Text := ["override".toList, "final".toList]

/-- Specifiers at the start of a return type that stand only inside the class. -/
def classOnlySpecifiers : List Text :=
  ["explicit".toList, "friend".toList, "inline".toList, "static".toList, "virtual".toList]

/-- The qualifiers after the parameter list of the definition. -/
def definitionQualifiers (d : Declaration) : Text :=
  Text.join [' '] ((d.addendum.getD []).words.filter (· ∉ classOnlyQualifiers))

/-- A return type without the specifiers at its start. -/
def withoutSpecifiers (returnType : Text) : Text :=
  (returnType.runs.dropWhile fun run => run.isBlank || classOnlySpecifiers.contains run).flatten

/-- The first line of the definition. -/
def signatureIn (d : Declaration) (chain : Chain) (config : Config) : Text :=
  let constant := if d.constReturn then "const ".toList else []
  let type := withoutSpecifiers d.returnType
  let returned := if type.isEmpty then [] else type ++ [' ']
  let mark := d.indirection.elim [] Indirection.text
  let arguments := d.templateArgs.elim [] fun args => ['<'] ++ args ++ ['>']
  let parameters := ['('] ++ Parameters.stripDefaults d.parameters ++ [')']
  let qualifiers := d.definitionQualifiers
  let tail := if qualifiers.isEmpty then [] else [' '] ++ qualifiers
  constant ++ returned ++ mark ++ chain.qualifier config.scopeSeparator ++ d.name ++ arguments ++
    parameters ++ tail

/-- The definition with the given body, or with an empty one. -/
def definitionIn (d : Declaration) (chain : Chain) (config : Config) (body : Option Text) : Text :=
  let initializers := d.initializers.elim [] fun list => " : ".toList ++ list
  d.signatureIn chain config ++ initializers ++ ['\n'] ++ body.getD config.emptyBody

end Declaration

end OutOfLine
