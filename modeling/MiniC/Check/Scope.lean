import MiniC.Ast.Basic
import MiniC.CType.Struct
import MiniC.Check.Error
import MiniC.Trace.Basic
import Std.Data.HashMap

set_option autoImplicit false

/-! # Scopes of the analysis

The analysis keeps every scope that it ever opened, in the order in which they were opened. Each
scope but the global one lies in an earlier scope. What a name means is found by going outwards
from the current scope. -/

namespace MiniC

/-- What a scope belongs to. -/
inductive ScopeKind
  | global
  | function
  | block
  | loop
  | switch
deriving DecidableEq, Repr

/-- The word for a kind of scope. -/
def ScopeKind.word : ScopeKind → String
  | .global => "global"
  | .function => "function"
  | .block => "block"
  | .loop => "loop"
  | .switch => "switch"

/-- A declared variable or parameter: the occurrence of its name that declares it, and its type. -/
structure Variable where
  leaf : Leaf
  type : CType
deriving DecidableEq, Repr

/-- The name of a variable. -/
def Variable.name (v : Variable) : Token := v.leaf.token

/-- A declared function. -/
structure Signature where
  name : Token
  returnType : CType
  params : List Variable
  hasBody : Bool
deriving DecidableEq, Repr

/-- What a name stands for. -/
inductive Entity
  | variable (v : Variable)
  | function (f : Signature)
deriving DecidableEq, Repr

/-- A scope: the scope it lies in, the names declared in it, and, for the scope of a function, the
function with its labels and the jumps to labels. -/
structure StaticScope where
  parent : Option Nat
  kind : ScopeKind
  names : List (Nat × Entity)
  function : Option Signature
  labels : List String
  gotos : List Token
deriving Repr

namespace StaticScope

/-- An empty scope. -/
def opened (parent : Option Nat) (kind : ScopeKind) (function : Option Signature) : StaticScope :=
  ⟨parent, kind, [], function, [], []⟩

/-- The scope after a name was given a meaning: in its old place if it had one, and after the other
names otherwise. -/
def put (s : StaticScope) (id : Nat) (e : Entity) : StaticScope :=
  match s.names.lookup id with
  | none => { s with names := s.names ++ [(id, e)] }
  | some _ => { s with names := s.names.map fun (n, old) => if n = id then (n, e) else (n, old) }

end StaticScope

/-- The types found for occurrences, under the numbers of their leaves. -/
abbrev Annotations := Std.HashMap Nat CType

/-- What the analysis knows: the scopes opened so far, the current one, the structs, and the types
found for occurrences. -/
structure Analysis where
  scopes : Array StaticScope
  current : Option Nat
  structs : StructTable
  annotations : Annotations

namespace Analysis

/-- Nothing is known. -/
def start : Analysis := ⟨#[], none, .empty, ∅⟩

/-- The scope with the number `i` and those around it, from the inside out. -/
def outwardsFrom (scopes : Array StaticScope) (i : Nat) : List StaticScope :=
  match scopes[i]? with
  | none => []
  | some scope =>
    scope ::
      match scope.parent with
      | none => []
      | some p => if p < i then outwardsFrom scopes p else []
termination_by i

/-- The current scope and those around it, from the inside out. -/
def outwards (a : Analysis) : List StaticScope :=
  match a.current with
  | none => []
  | some i => outwardsFrom a.scopes i

/-- The meaning that a name has in the current scope. -/
def lookup (a : Analysis) (id : Nat) : Option Entity :=
  a.outwards.findSome? fun scope => scope.names.lookup id

/-- The meaning that the current scope itself gives to a name. -/
def lookupHere (a : Analysis) (id : Nat) : Option Entity :=
  (a.current.bind fun i => a.scopes[i]?).bind fun scope => scope.names.lookup id

/-- The number of the innermost function scope around the current scope. -/
def functionScopeFrom (scopes : Array StaticScope) (i : Nat) : Option Nat :=
  match scopes[i]? with
  | none => none
  | some scope =>
    if scope.kind = .function then some i
    else
      match scope.parent with
      | none => none
      | some p => if p < i then functionScopeFrom scopes p else none
termination_by i

/-- The number of the innermost function scope around the current scope. -/
def functionScope? (a : Analysis) : Option Nat :=
  a.current.bind (functionScopeFrom a.scopes)

/-- Whether a jump that needs a scope of one of the given kinds may stand in the current scope:
going outwards, such a scope comes before the end of the function. -/
def allowsJump (a : Analysis) (kinds : List ScopeKind) : Bool :=
  match a.outwards.find? fun scope => kinds.contains scope.kind || scope.kind = .function with
  | none => false
  | some scope => kinds.contains scope.kind

end Analysis

/-- What the analysis finds out at a moment. -/
inductive Finding
  /-- This occurrence of a name has this meaning. -/
  | meaning (name : Leaf) (e : Entity)
deriving DecidableEq, Repr

/-- A step of the analysis. It may end with an error, and keeps what is known even then. -/
abbrev Check := Traced SemanticError Analysis Finding

namespace Check

/-- Ends the analysis. -/
def fail {α : Type} (cause : SemanticCause) (pos : Option Position) : Check α :=
  throw ⟨cause, pos⟩

/-- Ends the analysis with an error about a place. -/
def failAt {α : Type} (cause : SemanticCause) (pos : Position) : Check α :=
  fail cause (some pos)

/-- Opens a scope in the current one. -/
def enter (kind : ScopeKind) (function : Option Signature) : Check Unit :=
  modify fun a =>
    { a with
      scopes := a.scopes.push (.opened a.current kind function)
      current := some a.scopes.size }

/-- Goes back to the scope around the current one. -/
def leave : Check Unit :=
  modify fun a => { a with current := (a.current.bind fun i => a.scopes[i]?).bind (·.parent) }

/-- Changes a scope. -/
def modifyScope (i : Nat) (f : StaticScope → StaticScope) : Check Unit :=
  modify fun a => { a with scopes := a.scopes.modify i f }

/-- Gives a name a meaning in the current scope. -/
def put (id : Nat) (e : Entity) : Check Unit := do
  match (← get).current with
  | none => pure ()
  | some i => modifyScope i (·.put id e)

/-- Declares a variable in the current scope, where its name must not be declared already. -/
def declare (v : Variable) : Check Unit := do
  match (← get).lookupHere v.name.id with
  | some _ => failAt (.redeclaredVariable v.name.text) v.name.pos
  | none => put v.name.id (.variable v)

/-- Writes down the type of an occurrence, unless it has one already; the type that it has. -/
def annotate (slot : Nat) (t : CType) : Check CType := do
  match (← get).annotations[slot]? with
  | some known => pure known
  | none => do
    modify fun a => { a with annotations := a.annotations.insert slot t }
    pure t

/-- The type that a type name stands for. -/
def resolve (name : TypeName) : Check CType := do
  match (← get).structs.typeOf name.words with
  | .error e => failAt (.type e) name.first.pos
  | .ok t => do
    let _ ← annotate name.slot t
    pure t

end Check

end MiniC
