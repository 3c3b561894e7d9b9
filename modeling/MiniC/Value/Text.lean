import MiniC.Decimal.General
import MiniC.Value.Basic

set_option autoImplicit false

/-! # Values as text

How values are printed and named in messages. The text of a struct shows the fields of its record,
which may be structs again. -/

namespace MiniC

/-- The fields of a struct value, in the order of their declaration. -/
structure Record where
  tag : String
  fields : List (String × Value)
deriving DecidableEq, Repr, Inhabited

/-- The records of all struct values, each under its number. -/
structure Records where
  all : Array Record
deriving Repr, Inhabited

namespace Records

/-- No struct value exists. -/
def empty : Records := ⟨#[]⟩

/-- The record with a number; a number that was never given out has no fields. -/
def get (records : Records) (id : Nat) : Record :=
  records.all[id]?.getD ⟨"", []⟩

/-- The records with a new one, and its number. -/
def add (records : Records) (record : Record) : Nat × Records :=
  (records.all.size, ⟨records.all.push record⟩)

/-- The value of a field. -/
def field? (records : Records) (id : Nat) (name : String) : Option Value :=
  (records.get id).fields.lookup name

/-- The records after a field was given a value. -/
def setField (records : Records) (id : Nat) (name : String) (v : Value) : Records :=
  ⟨records.all.modify id fun record =>
    { record with
      fields := record.fields.map fun (n, old) => if n = name then (n, v) else (n, old) }⟩

end Records

/-- The text of a pointer. -/
def Pointer.text (p : Pointer) : String :=
  if p.isNull then "(nil)" else "<" ++ toString p.buffer ++ ":" ++ toString p.index ++ ">"

namespace Value

/-- The text of a value, with structs shown at most `depth` deep. -/
def textWithin (records : Records) : Nat → Value → String
  | _, .int n => toString n.value
  | _, .float x => Decimal.general.text x
  | _, .double x => Decimal.general.text x
  | _, .pointer p => p.text
  | _, .function name => "<function " ++ name ++ ">"
  | 0, .record id => "struct " ++ (records.get id).tag ++ " \x7b\x7d"
  | depth + 1, .record id =>
    let record := records.get id
    let fields := record.fields.map fun (name, v) => name ++ ": " ++ textWithin records depth v
    "struct " ++ record.tag ++ " \x7b" ++ ", ".intercalate fields ++ "\x7d"

/-- The text of a value. Structs are nested at most as deep as there are records. -/
def text (records : Records) (v : Value) : String :=
  v.textWithin records (records.all.size + 1)

end Value

end MiniC
