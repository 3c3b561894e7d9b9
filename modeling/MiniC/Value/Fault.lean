import MiniC.CType.Normalize
import MiniC.Source.Position
import MiniC.Value.Text

set_option autoImplicit false

/-! # What can go wrong in a run

The causes that end the run of a program, with their wordings. A cause may name the values it is
about; structs are shown with the fields that their records have when the run ends. -/

namespace MiniC

/-- Why a run cannot go on. -/
inductive Fault
  -- memory
  | invalidIndex
  | nullDereference
  | notAString
  | addressOfField
  -- arithmetic and comparison
  | divisionByZero
  | negativeShift
  | invalidOperands (op : String)
  | invalidPointerOperands (op : String)
  | notIntegers
  | notIntegerComplement
  | unrelatedDifference
  | unrelatedComparison
  | pointerComparison (kind : String)
  | notANumber (v : Value)
  | invalidOperand (v : Value)
  | invalidCondition (v : Value)
  -- types and conversions
  | type (e : TypeError)
  | uninferable (v : Value)
  | noValue (t : CType)
  | invalidPointer (v : Value)
  | invalidStruct (v : Value)
  | invalidNumeric (v : Value)
  | invalidInteger
  -- declarations
  | uninitializedAuto
  | listForScalar
  | listNeeded
  | rankTooHigh
  | invalidArraySize
  | tooManyInitializers
  -- names and calls
  | noMain
  | undefinedName (name : String)
  | undefinedFunction (name : String)
  | missingBody (name : String)
  | wrongArgumentCount (name : String)
  | invalidCall
  | emptyPrint
  | noResult
  | callOverflow
  -- control
  | strayBreak
  | strayContinue
  | missingLabel (label : String)
  -- expressions
  | notAssignable
  | derefOfNonPointer
  | indexOfNonPointer
  | nonIntegerIndex
  | arrowOfNonPointer
  | memberOfNonStruct
  | unknownField (name : String)
  | listAsExpression
  | notAnExpression (what : String)
deriving DecidableEq, Repr

/-- The words of a fault, where structs have the given records. -/
def Fault.message (records : Records) : Fault → String
  | .invalidIndex => "Invalid index"
  | .nullDereference => "Null pointer dereference."
  | .notAString => "Not a character string."
  | .addressOfField => "Address of struct field is not supported."
  | .divisionByZero => "Division by zero."
  | .negativeShift => "Negative shift count."
  | .invalidOperands op => "Invalid operands of " ++ op ++ "."
  | .invalidPointerOperands op => "Invalid pointer operands of " ++ op ++ "."
  | .notIntegers => "Not integer argument of binary operator."
  | .notIntegerComplement => "Not integer argument of ~."
  | .unrelatedDifference => "Subtraction of unrelated pointers."
  | .unrelatedComparison => "Comparison of unrelated pointers."
  | .pointerComparison kind => "Comparison of pointer and " ++ kind ++ "."
  | .notANumber v => "Not a number: " ++ v.text records
  | .invalidOperand v => "Invalid operand: " ++ v.text records ++ "."
  | .invalidCondition v => "Invalid condition value: " ++ v.text records
  | .type e => e.message
  | .uninferable v => "Cannot infer type of " ++ v.text records ++ "."
  | .noValue t => "No value of type " ++ t.text ++ "."
  | .invalidPointer v => "Invalid pointer value: " ++ v.text records ++ "."
  | .invalidStruct v => "Invalid struct value: " ++ v.text records ++ "."
  | .invalidNumeric v => "Invalid numeric value: " ++ v.text records ++ "."
  | .invalidInteger => "Invalid integer conversion."
  | .uninitializedAuto => "Variable of auto not initialized."
  | .listForScalar => "Initializer list for non-array."
  | .listNeeded => "Array initializer must be a list."
  | .rankTooHigh => "Arrays of rank greater than 2 are not supported."
  | .invalidArraySize => "Invalid array size."
  | .tooManyInitializers => "Too many initializers."
  | .noMain => "No main."
  | .undefinedName name => "Identifier " ++ name ++ " is not defined."
  | .undefinedFunction name => "Function " ++ name ++ " is not defined."
  | .missingBody name => "Function " ++ name ++ " has no body."
  | .wrongArgumentCount name => "Invalid number of arguments for " ++ name ++ "."
  | .invalidCall => "Invalid function call."
  | .emptyPrint => "printf needs an argument."
  | .noResult => "Function call returned no value."
  | .callOverflow => "Call stack overflow."
  | .strayBreak => "Break outside of loop or switch."
  | .strayContinue => "Continue outside of loop."
  | .missingLabel label => "Label " ++ label ++ " not found."
  | .notAssignable => "Expression is not assignable."
  | .derefOfNonPointer => "Indirection of non-pointer."
  | .indexOfNonPointer => "Not indexed value."
  | .nonIntegerIndex => "Not integer indexer argument."
  | .arrowOfNonPointer => "Member access through non-pointer."
  | .memberOfNonStruct => "Member access of non-struct."
  | .unknownField name => "Invalid member access: " ++ name ++ " is invalid field."
  | .listAsExpression => "Initializer list is not an expression."
  | .notAnExpression what => "Invalid expression: " ++ what

end MiniC
