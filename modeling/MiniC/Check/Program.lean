import MiniC.Check.Stmt

set_option autoImplicit false

/-! # Programs

The rules that the pieces of a program obey, and the analysis of a whole program. A struct may be
named in its own fields, and a function in its own body. -/

namespace MiniC

namespace Check

/-! ## Structs -/

/-- Adds a field to the struct declared under a number. -/
def structField (tag : String) (decl : Nat) (field : Declarator) : Check Unit := do
  let t ← declaredType field
  let name := field.name.token
  if t.isStruct && t.tag? = some tag then failAt (.incompleteStruct tag) field.pos
  if t.isVoid || t.isAuto then failAt (.fieldType name.text) field.pos
  let known := ((← get).structs.decls[decl]?).bind (·.field? name.text)
  if known.isSome then failAt (.duplicatedField name.text) name.pos
  modify fun a => { a with structs := a.structs.addField decl ⟨name.text, t, none⟩ }

/-- Declares a struct, and then its fields. -/
def structDecl (name : Leaf) (fields : List Declarator) : Check Unit := do
  let tag := name.token.text
  let (decl, structs) := (← get).structs.declare tag
  if ((← get).structs.find? tag).isSome then failAt (.redeclaredStruct tag) name.token.pos
  modify fun a => { a with structs }
  fields.forM (structField tag decl)

/-! ## Functions -/

/-- The parameter that a declarator declares. -/
def parameter (d : Declarator) : Check Variable := do
  let t ← declaredType d
  if t.isVoid || t.isAuto then failAt (.parameterType d.name.token.text) d.pos
  pure ⟨d.name, t⟩

/-- Whether a function has the given types. -/
def hasTypes (f : Signature) (returnType : CType) (params : List Variable) : Bool :=
  f.returnType.sameAs returnType && f.params.length = params.length
    && (f.params.zip params).all fun (a, b) => a.type.sameAs b.type

/-- Declares a function, with a body or without. A function may be declared again with the same
types, and gets at most one body; the parameters are then those that the body was given with. -/
def signature (name : Token) (returnType : CType) (params : List Variable) (hasBody : Bool) :
    Check Signature := do
  match (← get).lookupHere name.id with
  | some (.function f) => do
    if hasBody && f.hasBody then failAt (.redefinedFunction name.text) name.pos
    if !hasTypes f returnType params then failAt (.conflictingTypes name.text) name.pos
    if hasBody then
      let f := { f with hasBody := true, params }
      put name.id (.function f)
      pure f
    else pure f
  | some (.variable _) => failAt (.redeclaredVariable name.text) name.pos
  | none => do
    let f : Signature := ⟨name, returnType, params, hasBody⟩
    put name.id (.function f)
    pure f

/-- Declares the function that a piece of a program declares. -/
def functionHead (returnType : TypeName) (name : Leaf) (params : List Declarator)
    (hasBody : Bool) : Check Signature := do
  let t ← resolve returnType
  if t.isAuto then failAt (.autoFunction name.token.text) name.token.pos
  let params ← params.mapM parameter
  signature name.token t params hasBody

/-- Looks for the labels that jumps name. -/
def resolveGotos (labels : List String) : List Token → Check Unit
  | [] => pure ()
  | goto :: rest =>
    if labels.contains goto.text then resolveGotos labels rest
    else failAt (.undeclaredLabel goto.text) goto.pos

/-- Looks at the body of a function. -/
def functionBody (f : Signature) (body : List Stmt) : Check Unit := do
  enter .function (some f)
  f.params.forM declare
  stmt (.block body)
  let a ← get
  match a.current.bind fun i => a.scopes[i]? with
  | none => pure ()
  | some scope => resolveGotos scope.labels scope.gotos
  leave

/-! ## Programs -/

/-- Looks at a piece of a program. -/
def item : Item → Check Unit
  | .directive _ => pure ()
  | .struct name fields => structDecl name fields
  | .function returnType name params body => do
    functionBody (← functionHead returnType name params true) body
  | .prototype returnType name params => do
    let _ ← functionHead returnType name params false
    pure ()
  | .declaration d => declaration d

/-- Looks at a whole program. -/
def program (p : Program) : Check Unit := do
  enter .global none
  p.items.forM item
  leave

end Check

/-- The outcome of the analysis of a program, and what was known at its end. -/
def Program.check (p : Program) : Except SemanticError Unit × Analysis :=
  match Check.program p .start with
  | .ok _ a => (.ok (), a)
  | .error e a => (.error e, a)

end MiniC
