import MiniC.CType.Cast
import MiniC.CType.Normalize
import MiniC.Source.Position

set_option autoImplicit false

/-! # Semantic errors

Why a program that has the form of a program does not make sense, and where. -/

namespace MiniC

/-- What does not make sense in a program. -/
inductive SemanticCause
  -- types and structs
  | type (e : TypeError)
  | redeclaredStruct (tag : String)
  | incompleteStruct (tag : String)
  | fieldType (name : String)
  | duplicatedField (name : String)
  | arraySize
  -- declarations
  | redeclaredVariable (name : String)
  | uninitializedAuto
  | uninitializedConst
  | listForAuto
  | listForScalar
  | voidVariable
  -- functions
  | autoFunction (name : String)
  | parameterType (name : String)
  | redefinedFunction (name : String)
  | conflictingTypes (name : String)
  -- statements
  | condition (t : CType)
  | switchSelector
  | repeatedDefault
  | caseLabel
  | strayLabel
  | repeatedLabel (name : String)
  | undeclaredLabel (name : String)
  | strayGoto
  | strayBreak
  | strayContinue
  | strayReturn
  | missingValue (function : String)
  | unexpectedValue
  | returnType (e : CastError)
  -- names and calls
  | undeclaredName (name : String)
  | functionAsValue (name : String)
  | notAFunction (name : String)
  | invalidCall
  | tooManyArgs
  | tooFewArgs
  | argumentType (parameter : String)
  -- expressions
  | cast (e : CastError)
  | notAssignable
  | readOnly
  | structOperand (op : String)
  | voidOperand (op : String)
  | operandOf (op : String)
  | operandType (op : String)
  | incomparable
  | notIntegers
  | notIntegerComplement
  | ternaryTypes
  | steppedStruct (op : String)
  | derefType (t : CType)
  | addressOfNonPlace
  | castOfString
  | castToAuto
  | notIndexed (t : CType)
  | nonIntegerIndex
  | notPointed (t : CType)
  | notArrowed (t : CType)
  | unknownField (name : String)
  | listAsExpression
  | notAnExpression (what : String)
deriving DecidableEq, Repr

/-- The words of a semantic error. -/
def SemanticCause.message : SemanticCause → String
  | .type e => e.message
  | .redeclaredStruct tag => "Struct " ++ tag ++ " redeclaration."
  | .incompleteStruct tag => "Incomplete struct type " ++ tag ++ "."
  | .fieldType name => "Invalid struct field type: " ++ name ++ "."
  | .duplicatedField name => "Duplicated field " ++ name ++ "."
  | .arraySize => "Array size must be integer."
  | .redeclaredVariable name => "Variable " ++ name ++ " redeclaration."
  | .uninitializedAuto => "Variable of auto not initialized."
  | .uninitializedConst => "Variable of const not initialized."
  | .listForAuto => "Initializer list for auto variable."
  | .listForScalar => "Initializer list for non-array."
  | .voidVariable => "Variable of void type."
  | .autoFunction name => "Function " ++ name ++ " with auto return type."
  | .parameterType name => "Invalid parameter type: " ++ name ++ "."
  | .redefinedFunction name => "Function " ++ name ++ " redefinition."
  | .conflictingTypes name => "Conflicting types for " ++ name ++ "."
  | .condition t => "Invalid condition type: " ++ t.text ++ "."
  | .switchSelector => "Switch selector must be integer."
  | .repeatedDefault => "Switch case has more than one default."
  | .caseLabel => "Case label must be integer."
  | .strayLabel => "Label outside of function."
  | .repeatedLabel name => "The same label is declared more than once: " ++ name
  | .undeclaredLabel name => "Used undeclared label: " ++ name
  | .strayGoto => "Goto outside of function."
  | .strayBreak => "Break outside of loop or switch."
  | .strayContinue => "Continue outside of loop."
  | .strayReturn => "Return outside of function."
  | .missingValue function => "Function " ++ function ++ " must return a value."
  | .unexpectedValue => "Void function returns a value."
  | .returnType e => "Invalid return type: " ++ e.message
  | .undeclaredName name => "Identifier " ++ name ++ " used without declaration."
  | .functionAsValue name => "Function " ++ name ++ " used as a value."
  | .notAFunction name => name ++ " is not a function."
  | .invalidCall => "Invalid function call."
  | .tooManyArgs => "Given extra function args."
  | .tooFewArgs => "Too few function args."
  | .argumentType parameter => "Invalid function argument: " ++ parameter ++ "."
  | .cast e => e.message
  | .notAssignable => "Expression is not assignable."
  | .readOnly => "Assignment to read-only variable."
  | .structOperand op => "Struct operand of " ++ op ++ "."
  | .voidOperand op => "Void operand of " ++ op ++ "."
  | .operandOf op => "Invalid operand of " ++ op ++ "."
  | .operandType op => "Invalid type of " ++ op ++ " operand."
  | .incomparable => "Invalid operator args types."
  | .notIntegers => "Not integer argument of binary operator."
  | .notIntegerComplement => "Not integer argument of ~."
  | .ternaryTypes => "Invalid ternary operator args types."
  | .steppedStruct op => "Struct with " ++ op ++ "."
  | .derefType t => "Invalid type of star operator: " ++ t.text
  | .addressOfNonPlace => "Address of not lvalue."
  | .castOfString => "Invalid cast of string literal."
  | .castToAuto => "Cast to auto."
  | .notIndexed t => "Not indexed type " ++ t.text ++ "."
  | .nonIntegerIndex => "Not integer indexer argument."
  | .notPointed t => "Not pointable type " ++ t.text ++ "."
  | .notArrowed t => "Not arrowable type " ++ t.text ++ "."
  | .unknownField name => "Invalid member access: " ++ name ++ " is invalid field."
  | .listAsExpression => "Initializer list is not an expression."
  | .notAnExpression what => "Invalid expression: " ++ what

/-- A semantic error, and the position it is about. -/
structure SemanticError where
  cause : SemanticCause
  pos : Option Position
deriving DecidableEq, Repr

/-- A semantic error as it is shown. -/
def SemanticError.message (e : SemanticError) : String :=
  located e.cause.message e.pos

end MiniC
