import MiniC.Run.Stmt

set_option autoImplicit false

/-! # Running programs

The pieces of a program are registered in order: functions and structs become known, and global
variables are declared. Then the function `main` is called. -/

namespace MiniC

namespace Run

/-- Adds a field to the struct declared under a number. -/
def structField (ctx : Context) (decl : Nat) (d : Declarator) : Run Unit := do
  let name := d.name.token.text
  let t ← declaredType ctx.known d
  let add (bounds : Option (List Nat)) : Run Unit :=
    modify fun m => { m with structs := m.structs.addField decl ⟨name, t, bounds⟩ }
  add none
  if !d.dims.isEmpty then add (some (← arraySizes (eval ctx) d none))

/-- Declares a struct, and then its fields. -/
def structDecl (ctx : Context) (name : Leaf) (fields : List Declarator) : Run Unit := do
  let decl ← modifyGet fun m =>
    let (decl, structs) := m.structs.declare name.token.text
    (decl, { m with structs })
  fields.forM (structField ctx decl)

/-- Registers a piece of a program. -/
def item (ctx : Context) : Item → Run Unit
  | .directive _ => pure ()
  | .struct name fields => structDecl ctx name fields
  | .function returnType name params body => do
    let f : FunctionDef := ⟨name.token.text, params, body, ← resolve ctx.known returnType⟩
    modify fun m => { m with functions := setUnder name.token.id f m.functions }
  | .prototype _ name _ =>
    modify fun m =>
      { m with prototypes := setUnder name.token.id name.token.text m.prototypes }
  | .declaration d => declaration ctx d

/-- The name of the function that a run calls. -/
def mainName : String := "main"

/-- The last function that can be the main one: it has no parameters. -/
def mainFunction? (functions : List (Nat × FunctionDef)) : Option FunctionDef :=
  (functions.map (·.2)).reverse.find? fun f => f.name = mainName && f.params.isEmpty

/-- Runs a program. -/
def program (known : Nat → Option CType) (fuel : Nat) (p : Program) : Run Unit := do
  let ctx : Context := ⟨known, call known fuel⟩
  p.items.forM (item ctx)
  match mainFunction? (← get).functions with
  | none => fail .noMain none
  | some f => do
    modify fun m => { m with events := m.events.push .started }
    let _ ← call known fuel f [] p.pos?
    pure ()

end Run

/-- The message for a run that stopped with the given records. -/
def Stop.message (records : Records) : Stop → String
  | .fault cause pos => MiniC.located (cause.message records) pos
  | .tooDeep => Fault.callOverflow.message records
  | .badBounds => "Bounds of a field do not fit its type."
  | .tooLarge => "Integer too large for a floating number."
  | .unfinished => "Run not finished."

/-- The outcome of a run of a program, and the state at its end. The types in `known` were found
before; at most `fuel` steps are made in each loop and nested call. -/
def Program.run (p : Program) (known : Nat → Option CType) (fuel : Nat) :
    Except Stop Unit × Machine :=
  match Run.program known fuel p .start with
  | .ok _ m => (.ok (), m)
  | .error stop m => (.error stop, m)

/-- A number of steps that no run makes. -/
def ampleFuel : Nat := Nat.pow 2 62

end MiniC
