import MiniC.Ast.Basic
import MiniC.CType.Struct
import MiniC.Memory.Arena

set_option autoImplicit false

/-! # The state of a run

A running program has buffers, struct values, a stack of scopes and what it has declared so far.
Every variable is a buffer of one value, so that its address is an ordinary pointer. A scope owns
the buffers of its variables and arrays, and they are freed when it is left. The scope around a
scope is not always the one below it on the stack: a function body lies in the global scope,
wherever it is called. -/

namespace MiniC

/-! ## Scopes -/

/-- A variable: the buffer that holds its value, and its type. -/
structure Binding where
  handle : Nat
  type : CType
deriving DecidableEq, Repr

/-- A scope: the scope around it, its variables under the numbers of their names, and the handles of
the buffers it owns. -/
structure Frame where
  parent : Option Nat
  bindings : List (Nat × Binding)
  owned : Array Nat
deriving DecidableEq, Repr

namespace Frame

/-- An empty scope. -/
def opened (parent : Option Nat) : Frame := ⟨parent, [], #[]⟩

/-- The scope with one more buffer of its own. -/
def own (frame : Frame) (handle : Nat) : Frame :=
  { frame with owned := frame.owned.push handle }

/-- The scope with a variable, in place of an earlier one of the same name. -/
def bind (frame : Frame) (id : Nat) (binding : Binding) : Frame :=
  { frame with bindings := (id, binding) :: frame.bindings.filter fun (n, _) => n ≠ id }

/-- The variable of a name. -/
def lookup (frame : Frame) (id : Nat) : Option Binding :=
  frame.bindings.lookup id

end Frame

/-! ## The machine -/

/-- A function that can be called. -/
structure FunctionDef where
  name : String
  params : List Declarator
  body : List Stmt
  returnType : CType
deriving Repr

/-- Something that a run notes down as it happens. -/
inductive Event
  | started
  | called (name : String)
deriving DecidableEq, Repr

/-- The state of a run. Functions, prototypes and the buffers of string literals are kept under the
numbers of names and leaves, in the order in which these first came up. -/
structure Machine where
  arena : Arena
  records : Records
  frames : Array Frame
  current : Nat
  structs : StructTable
  functions : List (Nat × FunctionDef)
  prototypes : List (Nat × String)
  strings : List (Nat × Nat)
  depth : Nat
  output : String
  events : Array Event

namespace Machine

/-- The number of the global scope. -/
def globalScope : Nat := 0

/-- The state in which a run starts: there is only the global scope. -/
def start : Machine where
  arena := .empty
  records := .empty
  frames := #[.opened none]
  current := globalScope
  structs := .empty
  functions := []
  prototypes := []
  strings := []
  depth := 0
  output := ""
  events := #[]

/-! ## Scopes of a machine -/

/-- Opens a scope that lies in the given one, and makes it the current one. -/
def push (m : Machine) (parent : Nat) : Machine :=
  { m with frames := m.frames.push (.opened (some parent)), current := m.frames.size }

/-- Leaves the scope on top of the stack: its buffers are freed, and the scope around it becomes the
current one. -/
def pop (m : Machine) : Machine :=
  match m.frames.back? with
  | none => m
  | some frame =>
    { m with
      arena := frame.owned.foldl Arena.free m.arena
      frames := m.frames.pop
      current := frame.parent.getD globalScope }

/-- Opens the scope of a function that is called, which lies in the global scope. -/
def enterCall (m : Machine) (name : String) : Machine :=
  let m := m.push globalScope
  { m with depth := m.depth + 1, events := m.events.push (.called name) }

/-- Leaves the scope of a function, and goes back to the scope that called it. -/
def leaveCall (m : Machine) (caller : Nat) : Machine :=
  let m := m.pop
  { m with depth := m.depth - 1, current := caller }

/-- The variable that a name means in the scope with the number `i` or around it, looked for in at
most `steps` scopes. -/
def lookupFrom (frames : Array Frame) (id : Nat) : Nat → Nat → Option Binding
  | 0, _ => none
  | steps + 1, i =>
    match frames[i]? with
    | none => none
    | some frame =>
      match frame.lookup id with
      | some binding => some binding
      | none =>
        match frame.parent with
        | none => none
        | some p => lookupFrom frames id steps p

/-- The variable that a name means in the current scope. -/
def lookup (m : Machine) (id : Nat) : Option Binding :=
  lookupFrom m.frames id m.frames.size m.current

/-- Makes a buffer that no scope owns. -/
def alloc (m : Machine) (values : Array Value) : Nat × Machine :=
  let (handle, arena) := m.arena.alloc values
  (handle, { m with arena })

/-- Makes the buffer of a string literal, which no scope owns, and keeps it under the number of the
literal. -/
def keepString (m : Machine) (slot : Nat) (values : Array Value) : Nat × Machine :=
  let (handle, m) := m.alloc values
  (handle, { m with strings := (slot, handle) :: m.strings })

/-- Makes a buffer that the current scope owns. -/
def own (m : Machine) (values : Array Value) : Nat × Machine :=
  let (handle, arena) := m.arena.alloc values
  (handle, { m with arena, frames := m.frames.modify m.current (·.own handle) })

/-- Makes a variable of the current scope. -/
def bind (m : Machine) (id : Nat) (type : CType) (v : Value) : Machine :=
  let (handle, m) := m.own #[v]
  { m with frames := m.frames.modify m.current (·.bind id ⟨handle, type⟩) }

/-! ## Struct values of a machine -/

/-- Makes a struct value, known by the number it gets. -/
def addRecord (m : Machine) (record : Record) : Nat × Machine :=
  let (id, records) := m.records.add record
  (id, { m with records })

end Machine

/-- A list of things under numbers after the thing of a number was set: in its old place if there
was one, and after the others otherwise. -/
def setUnder {α : Type} (id : Nat) (new : α) : List (Nat × α) → List (Nat × α)
  | [] => [(id, new)]
  | (n, old) :: rest => if n = id then (id, new) :: rest else (n, old) :: setUnder id new rest

end MiniC
