import TwinView.Text.Position

/-!
Why a template, a script or a name is refused, and the wording of each refusal.
-/

namespace TwinView

inductive ScriptFault
  | unterminatedComment
  | unterminatedString
  | invalidEscape
  | invalidHexNumber
  | invalidExponent
  | nameAfterNumber
  | unexpectedCharacter (c : Char)
  | unexpectedToken (shown : String)
  | unexpectedEnd
  /-- A mark that should stand here, and the token that stands here instead. -/
  | missing (mark : Char) (before : Option String)
  | withStatement
  | unsupported (what : String)
  | assignmentTarget
  | unexpectedMember
  | nestedFunction
  | declaredName
  | loopBody
  | thisReference
  | unsupportedCall (method : Option String)
  | unsupportedNew
  | arrayLength (shown : String)
  | typeOperand
  | unsupportedType (name : String)
deriving DecidableEq, Repr

inductive TemplateFault
  | nestedView
  | loopSource
  | calledView
  | partName
  | attributeValue
  | idValue
  | noMethod
  | viewName (name : String)
deriving DecidableEq, Repr

inductive Error
  /-- The tree is malformed at a node. -/
  | template (fault : TemplateFault) (position : Option Position)
  /-- A script cannot run on the server. -/
  | script (fault : ScriptFault) (position : Position)
  | unnamedView
  | invalidName (name : String)
  /-- The input is no JSON of the expected shape. -/
  | json
deriving DecidableEq, Repr

def ScriptFault.message : ScriptFault → String
  | .unterminatedComment => "Unterminated comment"
  | .unterminatedString => "Unterminated string literal"
  | .invalidEscape => "Invalid escape sequence"
  | .invalidHexNumber => "Invalid hexadecimal number"
  | .invalidExponent => "Invalid exponent"
  | .nameAfterNumber => "Identifier starts immediately after numeric literal"
  | .unexpectedCharacter c => "Unexpected character '" ++ c.toString ++ "'"
  | .unexpectedToken shown => "Unexpected token '" ++ shown ++ "'"
  | .unexpectedEnd => "Unexpected end of input"
  | .missing mark none => "Missing expected " ++ mark.toString
  | .missing mark (some token) => "Missing expected " ++ mark.toString ++ " before '" ++ token ++ "'"
  | .withStatement => "'with' not legal in binding expressions"
  | .unsupported what => "Token not yet supported (" ++ what ++ ")"
  | .assignmentTarget => "Invalid assignment left-hand side"
  | .unexpectedMember => "Unexpected member"
  | .nestedFunction => "Nested functions not yet supported."
  | .declaredName => "Unexpected VAR type"
  | .loopBody => "Expected statement block"
  | .thisReference => "'this' not legal in binding expressions"
  | .unsupportedCall none => "Unsupported function call"
  | .unsupportedCall (some method) => "Unsupported function call (" ++ method ++ ")"
  | .unsupportedNew => "Create object type not yet supported"
  | .arrayLength shown => "Invalid array length (" ++ shown ++ ")"
  | .typeOperand => "Unexpected type expression"
  | .unsupportedType name =>
    "Translation for 'instanceof' token currently only supports Array and Date (" ++ name ++ ")"

def TemplateFault.message : TemplateFault → String
  | .nestedView => "Invalid command node type: VIEW"
  | .loopSource => "FOR loop missing arguments"
  | .calledView => "Unexpected Call command view attribute"
  | .partName => "PART command is missing name"
  | .attributeValue => "Invalid attribute node type"
  | .idValue => "Invalid ID attribute node type"
  | .noMethod => "Node should start with method"
  | .viewName name => "Invalid view name: " ++ name

namespace Error

def message : Error → String
  | .template fault _ => fault.message
  | .script fault _ => fault.message
  | .unnamedView => "VIEW is missing name"
  | .invalidName name => "Invalid identifier: " ++ name
  | .json => "Not a template in JSON"

/-- Where the fault lies. A malformed node without a position stands at line zero. -/
def position : Error → Option Position
  | .template _ position => some (position.getD ⟨0, 0, 0⟩)
  | .script _ position => some position
  | _ => none

def isScript : Error → Bool
  | .script _ _ => true
  | _ => false

end Error

end TwinView
