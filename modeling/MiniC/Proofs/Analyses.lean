import MiniC.Check.Program
import MiniC.Proofs.Occurrences
import MiniC.Proofs.Trace

set_option autoImplicit false

/-! # Properties of all analyses

What holds of every small step of the analysis of a program, and is kept by every way to put steps
together, holds of the analysis of every expression, statement and program. This is an induction
over the syntax; the small steps depend on it by the type names and leaves that occur in it. The
rules that compute with types consist of even fewer kinds of steps. -/

namespace MiniC

/-- How a piece of a program declares a function: the type that it returns, its name, its
parameters, and whether there is a body. -/
structure FunctionHead where
  returnType : TypeName
  name : Leaf
  params : List Declarator
  hasBody : Bool

/-- The function that a piece of a program declares. -/
def Item.head? : Item → Option FunctionHead
  | .function returnType name params _ => some ⟨returnType, name, params, true⟩
  | .prototype returnType name params => some ⟨returnType, name, params, false⟩
  | _ => none

namespace Check

/-- Declares the function of a head. -/
abbrev declareHead (head : FunctionHead) : Check Signature :=
  functionHead head.returnType head.name head.params head.hasBody

/-! ## Rules for types -/

/-- A property of the steps that change nothing that is kept when steps are put together. -/
structure Closed (P : ∀ {α : Type}, Check α → Prop) : Prop where
  pure : ∀ {α : Type} (r : α), P (pure r : Check α)
  bind : ∀ {α β : Type} {x : Check α} {f : α → Check β}, P x → (∀ r, P (f r)) → P (x >>= f)
  fail : ∀ {α : Type} (cause : SemanticCause) (pos : Option Position), P (fail cause pos : Check α)
  get : P (get : Check Analysis)

namespace Closed

variable {P : ∀ {α : Type}, Check α → Prop} {α β : Type}

variable (hP : Closed @P)

include hP

theorem failAt (cause : SemanticCause) (pos : Position) : P (Check.failAt cause pos : Check α) :=
  hP.fail cause _

omit hP in
theorem ite {c : Prop} [Decidable c] {x y : Check α} (hx : P x) (hy : P y) :
    P (if c then x else y) := by
  split
  · exact hx
  · exact hy

/-- A step that ends with an error in one case, and goes on in the other one. -/
theorem reject {c : Prop} [Decidable c] {cause : SemanticCause} {pos : Position}
    {f : α → Check β} {x : Check β} (hx : P x) :
    P (if c then Check.failAt cause pos >>= f else x) :=
  ite (hP.failAt cause pos) hx

theorem forM {γ : Type} {f : γ → Check PUnit} {cs : List γ} (hf : ∀ c ∈ cs, P (f c)) :
    P (cs.forM f) := by
  induction cs with
  | nil => exact hP.pure _
  | cons c rest ih =>
    obtain ⟨hc, hrest⟩ := List.forall_mem_cons.mp hf
    exact hP.bind hc fun _ => ih hrest

theorem mapM {γ : Type} {f : γ → Check α} {cs : List γ} (hf : ∀ c ∈ cs, P (f c)) :
    P (cs.mapM f) := by
  induction cs with
  | nil =>
    rw [List.mapM_nil]
    exact hP.pure []
  | cons c rest ih =>
    obtain ⟨hc, hrest⟩ := List.forall_mem_cons.mp hf
    rw [List.mapM_cons]
    exact hP.bind hc fun _ => hP.bind (ih hrest) fun _ => hP.pure _

theorem widerType (cause : SemanticCause) (pos : Position) (left right : CType) :
    P (Check.widerType cause pos left right) :=
  ite (hP.pure _) (ite (hP.pure _) (hP.failAt _ _))

theorem arithType (op : ArithOp) (left right : CType) (pos : Position) :
    P (Check.arithType op left right pos) := by
  unfold Check.arithType
  split_ifs <;> first
    | exact hP.pure _
    | exact hP.failAt _ _
    | exact hP.widerType _ _ _ _

theorem operatorType (op : BinaryOp) (left right : CType) (pos : Position) :
    P (Check.operatorType op left right pos) := by
  refine ite (hP.failAt _ _) (ite (hP.failAt _ _) ?_)
  cases op with
  | logic op => exact hP.pure _
  | relation op => exact ite (hP.pure _) (hP.failAt _ _)
  | arith op => exact hP.arithType op left right pos

theorem unaryType (op : UnaryOp) (isPlace : Bool) (t : CType) (pos : Position) :
    P (Check.unaryType op isPlace t pos) := by
  cases op with
  | negate => exact ite (hP.failAt _ _) (hP.pure _)
  | plus => exact ite (hP.failAt _ _) (hP.pure _)
  | not => exact ite (hP.failAt _ _) (hP.pure _)
  | complement => exact ite (hP.pure _) (hP.failAt _ _)
  | address => exact ite (hP.pure _) (hP.failAt _ _)
  | deref =>
    unfold Check.unaryType
    cases t.pointee? with
    | none => exact hP.failAt _ _
    | some pointee => exact hP.pure pointee

theorem condition (t : CType) (pos : Position) : P (Check.condition t pos) :=
  ite (hP.failAt _ _) (hP.pure _)

theorem implicitCast (cause : CastError → SemanticCause) (src dst : CType) (pos : Position) :
    P (Check.implicitCast cause src dst pos) := by
  unfold Check.implicitCast
  cases src.castError? dst with
  | some e => exact hP.failAt _ _
  | none => exact hP.pure _

theorem fieldType (cause : CType → SemanticCause) (t : CType) (members : Option (List Field))
    (field : Leaf) (pos : Position) : P (Check.fieldType cause t members field pos) := by
  unfold Check.fieldType
  split
  · exact hP.failAt _ _
  · split
    · exact hP.failAt _ _
    · exact hP.pure _

theorem resolveGotos (labels : List String) (gotos : List Token) :
    P (Check.resolveGotos labels gotos) := by
  induction gotos with
  | nil => exact hP.pure ()
  | cons goto rest ih => exact ite ih (hP.failAt _ _)

/-- A property of noting meanings and of writing types down is one of finding the types of
variables. -/
theorem variableType {leaf : Leaf} (hnote : ∀ finding, P (Traced.note finding : Check Unit))
    (hannotate : ∀ t, P (annotate leaf.slot t)) : P (Check.variableType leaf) := by
  refine hP.bind hP.get fun a => ?_
  split
  · exact hP.failAt _ _
  · exact hP.failAt _ _
  · exact hP.bind (hnote _) fun _ => hannotate _

theorem annotate {slot : Nat} {t : CType} (hinsert : P (modify fun a =>
    { a with annotations := a.annotations.insert slot t } : Check PUnit)) :
    P (Check.annotate slot t) := by
  refine hP.bind hP.get fun a => ?_
  split
  · exact hP.pure _
  · exact hP.bind hinsert fun _ => hP.pure _

/-- A property of writing types down is one of finding the types that type names stand for. -/
theorem resolve {name : TypeName} (hannotate : ∀ t, P (Check.annotate name.slot t)) :
    P (Check.resolve name) := by
  refine hP.bind hP.get fun a => ?_
  split
  · exact hP.failAt _ _
  · exact hP.bind (hannotate _) fun _ => hP.pure _

/-! ### Names -/

section

variable (hnames : ∀ (i : Nat) (f : StaticScope → StaticScope),
  (∀ s, ∃ names, f s = { s with names }) → P (modifyScope i f))

include hnames

theorem put (id : Nat) (e : Entity) : P (Check.put id e) := by
  refine hP.bind hP.get fun a => ?_
  split
  · exact hP.pure ()
  · refine hnames _ _ fun s => ?_
    unfold StaticScope.put
    split
    · exact ⟨_, rfl⟩
    · exact ⟨_, rfl⟩

/-- A property of all changes of names is one of all declarations of variables. -/
theorem declare (v : Variable) : P (Check.declare v) := by
  refine hP.bind hP.get fun a => ?_
  split
  · exact hP.failAt _ _
  · exact hP.put hnames _ _

/-- A property of all changes of names is one of all declarations of functions. -/
theorem signature (name : Token) (returnType : CType) (params : List Variable) (hasBody : Bool) :
    P (Check.signature name returnType params hasBody) := by
  refine hP.bind hP.get fun a => ?_
  split
  · refine hP.reject (hP.reject ?_)
    exact ite (hP.bind (hP.put hnames _ _) fun _ => hP.pure _) (hP.pure _)
  · exact hP.failAt _ _
  · exact hP.bind (hP.put hnames _ _) fun _ => hP.pure _

end

/-! ### Labels -/

section

variable (hlabels : ∀ (i : Nat) (f : StaticScope → StaticScope),
  (∀ s, ∃ labels gotos, f s = { s with labels, gotos }) → P (modifyScope i f))

include hlabels

/-- A property of all changes of labels is one of all declarations of labels. -/
theorem label (name : Leaf) : P (Check.label name) := by
  refine hP.bind hP.get fun a => ?_
  split
  · exact hP.failAt _ _
  · exact hP.reject (hlabels _ _ fun s => ⟨_, _, rfl⟩)

/-- A property of all changes of labels is one of all jumps to labels. -/
theorem goto (name : Leaf) : P (Check.instr (.goto name)) := by
  refine hP.bind hP.get fun a => ?_
  split
  · exact hP.failAt _ _
  · exact hlabels _ _ fun s => ⟨_, _, rfl⟩

end

end Closed

/-! ## Whole analyses -/

/-- A property of all small steps of the analysis of the given occurrences that stay in the current
scope, and note no function, no label and no jump, which is kept when steps are put together. -/
structure Typing (P : ∀ {α : Type}, Check α → Prop) (l : List Occurrence) : Prop
    extends Closed @P where
  note : ∀ finding, P (Traced.note finding : Check Unit)
  variableType : ∀ leaf, .expr (.identifier leaf) ∈ l → P (Check.variableType leaf)
  literal : ∀ leaf kind, .expr (.literal leaf kind) ∈ l → P (annotate leaf.slot kind.ctype)
  resolve : ∀ name, .type name ∈ l → P (resolve name)
  declare : ∀ v, P (declare v)

/-- A property of all small steps of the analysis of the given occurrences, but of those that
declare functions and structs, which is kept by all ways to put steps together. -/
structure Composed (P : ∀ {α : Type}, Check α → Prop) (l : List Occurrence) : Prop
    extends Typing @P l where
  label : ∀ name, P (Check.label name)
  goto : ∀ name, P (Check.instr (.goto name))
  scope : ∀ {body : Check Unit} (kind : ScopeKind) (f : Option Signature), P body →
    P (do enter kind f; body; leave)

/-- A property of all small steps of the analysis of the given occurrences, but of those that
declare functions, which is kept by all ways to put steps together. -/
structure Declaring (P : ∀ {α : Type}, Check α → Prop) (l : List Occurrence) : Prop
    extends Composed @P l where
  structs : ∀ f : StructTable → StructTable,
    P (modify fun a => { a with structs := f a.structs } : Check PUnit)

/-- Looks for the labels that the jumps of the current scope name. -/
def jumpTargets : Check Unit := do
  let a ← get
  match a.current.bind fun i => a.scopes[i]? with
  | none => pure ()
  | some scope => resolveGotos scope.labels scope.gotos

/-- The body of a function is looked at in a scope of its own. -/
theorem functionBody_eq (f : Signature) (body : List Stmt) :
    functionBody f body = (do
      enter .function (some f)
      (do
        f.params.forM declare
        stmt (.block body)
        jumpTargets)
      leave) := by
  simp only [functionBody, jumpTargets, LawfulMonad.bind_assoc]
  congr 1
  funext _
  congr 1
  funext _
  congr 1
  funext _
  congr 1
  funext a
  -- the step that leaves the scope is written behind each answer of the match
  cases a.current.bind fun i => a.scopes[i]? with
  | none => rfl
  | some scope => rfl

namespace Typing

variable {P : ∀ {α : Type}, Check α → Prop} {l : List Occurrence} {α β : Type}

section

variable (hP : Typing @P l)

include hP

/-! ### Expressions -/

theorem calledFunction (callee : Expr) (count : Nat) : P (Check.calledFunction callee count) := by
  cases callee with
  | identifier leaf =>
    refine hP.bind hP.get fun a => ?_
    split
    · exact Closed.ite (Closed.ite (hP.failAt _ _) (hP.pure _)) (hP.failAt _ _)
    · exact hP.failAt _ _
    · refine Closed.ite (hP.failAt _ _) (Closed.ite (hP.failAt _ _) ?_)
      exact hP.bind (hP.note _) fun _ => hP.pure _
  | _ => exact hP.failAt _ _

end

mutual

theorem exprType (hP : Typing @P l) (e : Expr) (h : e.occurrences ⊆ l) :
    P (Check.exprType e) := by
  cases e with
  | identifier leaf =>
    rw [Check.exprType]
    exact hP.variableType leaf (h List.mem_cons_self)
  | literal leaf kind =>
    rw [Check.exprType]
    exact hP.literal leaf kind (h List.mem_cons_self)
  | parens e =>
    rw [Check.exprType]
    exact exprType hP e (List.subset_of_cons_subset h)
  | unary op e =>
    rw [Check.exprType]
    refine hP.reject (hP.bind (exprType hP e (List.subset_of_cons_subset h)) fun t => ?_)
    exact hP.unaryType _ _ _ _
  | step op e =>
    rw [Check.exprType]
    refine hP.reject (hP.bind (exprType hP e (List.subset_of_cons_subset h)) fun t => ?_)
    exact hP.reject (hP.reject (hP.pure t))
  | binary op left right =>
    obtain ⟨hleft, hright⟩ := List.append_subset.mp (List.subset_of_cons_subset h)
    rw [Check.exprType]
    refine hP.bind (exprType hP left hleft) fun a => hP.bind (exprType hP right hright) fun b => ?_
    exact hP.operatorType _ _ _ _
  | assign op left right =>
    obtain ⟨hleft, hright⟩ := List.append_subset.mp (List.subset_of_cons_subset h)
    rw [Check.exprType]
    refine hP.reject (hP.bind (exprType hP left hleft) fun a => hP.reject ?_)
    refine hP.bind (exprType hP right hright) fun b => ?_
    have hrest (result : CType) : P (do
        Check.implicitCast .cast result a left.pos
        Pure.pure a) := hP.bind (hP.implicitCast _ _ _ _) fun _ => hP.pure a
    cases op with
    | none => exact hP.bind (hP.pure b) hrest
    | some op => exact hP.bind (hP.operatorType _ _ _ _) hrest
  | conditional cond first second =>
    obtain ⟨hcond, hparts⟩ := List.append_subset.mp (List.subset_of_cons_subset h)
    obtain ⟨hfirst, hsecond⟩ := List.append_subset.mp hparts
    rw [Check.exprType]
    refine hP.bind (exprType hP cond hcond) fun t => hP.bind (hP.condition _ _) fun _ => ?_
    refine hP.bind (exprType hP first hfirst) fun a => ?_
    refine hP.bind (exprType hP second hsecond) fun b => ?_
    exact hP.widerType _ _ _ _
  | call callee args =>
    obtain ⟨-, hargs⟩ := List.append_subset.mp (List.subset_of_cons_subset h)
    rw [Check.exprType]
    refine hP.bind (hP.calledFunction callee args.length) fun f? => ?_
    cases f? with
    | none => exact hP.bind (argTypes hP args hargs) fun _ => hP.pure _
    | some f => exact hP.bind (argsFor hP f.params args hargs) fun _ => hP.pure _
  | index base place =>
    obtain ⟨hbase, hplace⟩ := List.append_subset.mp (List.subset_of_cons_subset h)
    rw [Check.exprType]
    refine hP.bind (exprType hP base hbase) fun b => ?_
    cases b.pointee? with
    | none => exact hP.failAt _ _
    | some pointee => exact hP.bind (exprType hP place hplace) fun t => hP.reject (hP.pure _)
  | member e field =>
    rw [Check.exprType]
    refine hP.bind (exprType hP e (List.subset_of_cons_subset h)) fun t => ?_
    refine hP.bind hP.get fun a => ?_
    exact hP.fieldType _ _ _ _ _
  | arrow e field =>
    rw [Check.exprType]
    refine hP.bind (exprType hP e (List.subset_of_cons_subset h)) fun t => ?_
    refine hP.bind hP.get fun a => ?_
    exact hP.fieldType _ _ _ _ _
  | sizeOf type =>
    rw [Check.exprType]
    exact hP.bind (hP.resolve type (h (by simp [Expr.occurrences]))) fun _ => hP.pure _
  | cast type e =>
    obtain ⟨htype, he⟩ := List.cons_subset.mp (List.subset_of_cons_subset h)
    rw [Check.exprType]
    refine hP.bind (hP.resolve type htype) fun target => ?_
    refine hP.reject (hP.bind (exprType hP e he) fun src => ?_)
    exact hP.reject (hP.reject (hP.reject (hP.pure _)))
  | list head tail =>
    rw [Check.exprType]
    exact hP.failAt _ _

theorem argTypes (hP : Typing @P l) (args : List Expr)
    (h : Expr.occurrences.occurrencesAll args ⊆ l) : P (Check.exprType.argTypes args) := by
  cases args with
  | nil =>
    rw [Check.exprType.argTypes]
    exact hP.pure ()
  | cons e rest =>
    obtain ⟨he, hrest⟩ := List.append_subset.mp h
    rw [Check.exprType.argTypes]
    exact hP.bind (exprType hP e he) fun _ => argTypes hP rest hrest

theorem argsFor (hP : Typing @P l) (params : List Variable) (args : List Expr)
    (h : Expr.occurrences.occurrencesAll args ⊆ l) : P (Check.exprType.argsFor params args) := by
  cases args with
  | nil =>
    rw [Check.exprType.argsFor]
    · exact hP.pure ()
    · exact fun _ _ _ _ _ h => by cases h
  | cons e rest =>
    cases params with
    | nil =>
      rw [Check.exprType.argsFor]
      · exact hP.pure ()
      · exact fun _ _ _ _ h => by cases h
    | cons param params =>
      obtain ⟨he, hrest⟩ := List.append_subset.mp h
      rw [Check.exprType.argsFor]
      refine hP.bind (exprType hP e he) fun t => ?_
      exact hP.bind (hP.implicitCast _ _ _ _) fun _ => argsFor hP params rest hrest

end

mutual

theorem initializer (hP : Typing @P l) (target : CType) (e : Expr) (h : e.occurrences ⊆ l) :
    P (Check.initializer target e) := by
  -- only a list is not looked at as an expression
  by_cases hlist : ∃ head tail, e = .list head tail
  · obtain ⟨head, tail, rfl⟩ := hlist
    obtain ⟨hhead, htail⟩ := List.append_subset.mp (List.subset_of_cons_subset h)
    rw [Check.initializer]
    cases target.pointee? with
    | none => exact hP.failAt _ _
    | some element =>
      exact hP.bind (initializer hP element head hhead) fun _ => initializers hP element tail htail
  · rw [Check.initializer]
    · exact hP.bind (hP.exprType e h) fun t => hP.implicitCast _ _ _ _
    · exact fun head tail heq => hlist ⟨head, tail, heq⟩

theorem initializers (hP : Typing @P l) (target : CType) (items : List Expr)
    (h : Expr.occurrences.occurrencesAll items ⊆ l) :
    P (Check.initializer.initializers target items) := by
  cases items with
  | nil =>
    rw [Check.initializer.initializers]
    exact hP.pure ()
  | cons e rest =>
    obtain ⟨he, hrest⟩ := List.append_subset.mp h
    rw [Check.initializer.initializers]
    exact hP.bind (initializer hP target e he) fun _ => initializers hP target rest hrest

end

/-! ### Declarations -/

section

variable (hP : Typing @P l)

include hP

theorem dimensions (dims : List Dim) (h : dims.flatMap Dim.occurrences ⊆ l) :
    P (Check.dimensions dims) := by
  induction dims with
  | nil => exact hP.pure ()
  | cons dim rest ih =>
    obtain ⟨hdim, hrest⟩ := List.append_subset.mp h
    cases dim with
    | unsized => exact ih hrest
    | sized size => exact hP.bind (hP.exprType size hdim) fun t => hP.reject (ih hrest)

theorem declaredType (d : Declarator) (h : d.occurrences ⊆ l) : P (Check.declaredType d) := by
  obtain ⟨htype, hparts⟩ := List.cons_subset.mp h
  obtain ⟨hdims, -⟩ := List.append_subset.mp hparts
  exact hP.bind (hP.resolve d.type htype) fun _ => hP.bind (hP.dimensions d.dims hdims) fun _ =>
    hP.pure _

theorem declarator (d : Declarator) (h : d.occurrences ⊆ l) : P (Check.declarator d) := by
  obtain ⟨-, hinit⟩ := List.append_subset.mp (List.cons_subset.mp h).2
  refine hP.bind (hP.declaredType d h) fun declared => ?_
  have hdeclare (t : CType) : P (do
      if t.isVoid then Check.failAt .voidVariable d.pos
      Check.declare ⟨d.name, t⟩) := hP.reject (hP.declare _)
  cases hd : d.init with
  | none =>
    refine hP.bind ?_ hdeclare
    exact hP.reject (hP.reject (hP.pure _))
  | some init =>
    rw [hd, Option.toList_some, List.flatMap_singleton] at hinit
    refine hP.bind (Closed.ite (hP.reject ?_) ?_) hdeclare
    · exact hP.bind (hP.exprType init hinit) fun t => hP.pure _
    · exact hP.bind (hP.initializer declared init hinit) fun _ => hP.pure _

/-- The same step for each of several things that occur. -/
theorem each {γ : Type} {f : γ → Check PUnit} {occurrences : γ → List Occurrence} {cs : List γ}
    (h : cs.flatMap occurrences ⊆ l) (hf : ∀ c, occurrences c ⊆ l → P (f c)) : P (cs.forM f) :=
  hP.forM fun c hc => hf c fun _ ho => h (List.mem_flatMap_of_mem hc ho)

/-! ### Instructions -/

theorem returnFrom (f : Signature) (value : Option Expr)
    (h : value.toList.flatMap Expr.occurrences ⊆ l) : P (Check.returnFrom f value) := by
  cases value with
  | none => exact Closed.ite (hP.pure ()) (hP.fail _ _)
  | some e =>
    rw [Option.toList_some, List.flatMap_singleton] at h
    exact hP.reject (hP.bind (hP.exprType e h) fun t => hP.implicitCast _ _ _ _)

/-- An instruction that is no jump to a label. -/
theorem plainInstr (i : Instr) (hi : ∀ label, i ≠ .goto label) (h : i.occurrences ⊆ l) :
    P (Check.instr i) := by
  cases i with
  | expr e => exact hP.bind (hP.exprType e h) fun _ => hP.pure ()
  | declare d => exact hP.each h hP.declarator
  | «break» token => exact hP.bind hP.get fun a => Closed.ite (hP.failAt _ _) (hP.pure ())
  | «continue» token => exact hP.bind hP.get fun a => Closed.ite (hP.failAt _ _) (hP.pure ())
  | «return» value =>
    refine hP.bind hP.get fun a => ?_
    split
    · exact hP.fail _ _
    · exact hP.returnFrom _ value h
  | goto label => exact absurd rfl (hi label)

theorem instrType (i : Instr) (h : i.occurrences ⊆ l) : P (Check.instrType i) := by
  cases i with
  | expr e => exact hP.bind (hP.exprType e h) fun _ => hP.pure _
  | _ => exact hP.fail _ _

theorem loopCondition (cond : Option Instr) (h : cond.toList.flatMap Instr.occurrences ⊆ l) :
    P (Check.loopCondition cond) := by
  cases cond with
  | none => exact hP.pure ()
  | some i =>
    rw [Option.toList_some, List.flatMap_singleton] at h
    exact hP.bind (hP.instrType i h) fun _ => hP.condition _ _

theorem loopStep (step : Option Instr) (h : step.toList.flatMap Instr.occurrences ⊆ l) :
    P (Check.loopStep step) := by
  cases step with
  | none => exact hP.pure ()
  | some i =>
    rw [Option.toList_some, List.flatMap_singleton] at h
    exact hP.bind (hP.instrType i h) fun _ => hP.pure ()

theorem caseLabel (value : Option Expr) (h : value.toList.flatMap Expr.occurrences ⊆ l) :
    P (Check.caseLabel value) := by
  cases value with
  | none => exact hP.pure ()
  | some e =>
    rw [Option.toList_some, List.flatMap_singleton] at h
    exact hP.bind (hP.exprType e h) fun t => Closed.ite (hP.failAt _ _) (hP.pure ())

end

end Typing

namespace Composed

variable {P : ∀ {α : Type}, Check α → Prop} {l : List Occurrence} {α β : Type}

/-! ### Statements -/

section

variable (hP : Composed @P l)

include hP

/-- What is looked at in a scope of its own, and what comes after it. -/
theorem scope_bind (kind : ScopeKind) (f : Option Signature) {body : Check Unit} {rest : Check α}
    (hbody : P body) (hrest : P rest) : P (do enter kind f; body; leave; rest) := by
  have h := hP.bind (hP.scope kind f hbody) fun _ => hrest
  simpa only [LawfulMonad.bind_assoc] using h

theorem instr (i : Instr) (h : i.occurrences ⊆ l) : P (Check.instr i) := by
  by_cases hi : ∃ label, i = .goto label
  · obtain ⟨label, rfl⟩ := hi
    exact hP.goto label
  · exact hP.plainInstr i (fun label heq => hi ⟨label, heq⟩) h

end

mutual

theorem stmt (hP : Composed @P l) (s : Stmt) (h : s.occurrences ⊆ l) : P (Check.stmt s) := by
  cases s with
  | block body =>
    rw [Check.stmt]
    exact hP.scope _ _ (stmts hP body h)
  | line instrs =>
    rw [Check.stmt]
    exact hP.each h hP.instr
  | label name =>
    rw [Check.stmt]
    exact hP.label name
  | branches conditional otherwise =>
    obtain ⟨hconditional, hotherwise⟩ := List.append_subset.mp h
    rw [Check.stmt]
    exact hP.bind (branches hP conditional hconditional) fun _ => elseBranch hP otherwise hotherwise
  | «while» cond body =>
    obtain ⟨hcond, hbody⟩ := List.append_subset.mp h
    rw [Check.stmt]
    refine hP.bind (hP.exprType cond hcond) fun t => hP.bind (hP.condition _ _) fun _ => ?_
    exact hP.scope _ _ (stmt hP body hbody)
  | doWhile cond body =>
    obtain ⟨hcond, hbody⟩ := List.append_subset.mp h
    rw [Check.stmt]
    refine hP.scope_bind _ _ (stmt hP body hbody) ?_
    exact hP.bind (hP.exprType cond hcond) fun t => hP.condition _ _
  | «for» init cond step body =>
    obtain ⟨hinit, hparts⟩ := List.append_subset.mp h
    obtain ⟨hcond, hparts⟩ := List.append_subset.mp hparts
    obtain ⟨hstep, hbody⟩ := List.append_subset.mp hparts
    have hrest : P (do
        Check.loopCondition cond
        Check.loopStep step
        Check.stmt body) := by
      refine hP.bind (hP.loopCondition cond hcond) fun _ => ?_
      exact hP.bind (hP.loopStep step hstep) fun _ => stmt hP body hbody
    rw [Check.stmt]
    cases init with
    | none => simpa only [LawfulMonad.bind_assoc] using hP.scope .loop none hrest
    | some i =>
      rw [Option.toList_some, List.flatMap_singleton] at hinit
      have hall := hP.scope .loop none (hP.bind (hP.instr i hinit) fun _ => hrest)
      simpa only [LawfulMonad.bind_assoc] using hall
  | «switch» selector parts =>
    obtain ⟨hselector, hparts⟩ := List.append_subset.mp h
    rw [Check.stmt]
    refine hP.bind (hP.exprType selector hselector) fun t => ?_
    exact hP.reject (hP.reject (hP.scope _ _ (cases hP parts hparts)))

theorem stmts (hP : Composed @P l) (body : List Stmt)
    (h : Stmt.occurrences.occurrencesAll body ⊆ l) : P (Check.stmt.stmts body) := by
  cases body with
  | nil =>
    rw [Check.stmt.stmts]
    exact hP.pure ()
  | cons s rest =>
    obtain ⟨hs, hrest⟩ := List.append_subset.mp h
    rw [Check.stmt.stmts]
    exact hP.bind (stmt hP s hs) fun _ => stmts hP rest hrest

theorem branches (hP : Composed @P l) (conditional : List (Expr × Stmt))
    (h : Stmt.occurrences.occurrencesBranches conditional ⊆ l) :
    P (Check.stmt.branches conditional) := by
  match conditional with
  | [] =>
    rw [Check.stmt.branches]
    exact hP.pure ()
  | (cond, body) :: rest =>
    obtain ⟨hcond, hparts⟩ := List.append_subset.mp h
    obtain ⟨hbody, hrest⟩ := List.append_subset.mp hparts
    rw [Check.stmt.branches]
    refine hP.bind (hP.exprType cond hcond) fun t => hP.bind (hP.condition _ _) fun _ => ?_
    exact hP.scope_bind _ _ (stmt hP body hbody) (branches hP rest hrest)

theorem elseBranch (hP : Composed @P l) (otherwise : Option Stmt)
    (h : Stmt.occurrences.occurrencesElse otherwise ⊆ l) : P (Check.stmt.elseBranch otherwise) := by
  match otherwise with
  | none =>
    rw [Check.stmt.elseBranch]
    exact hP.pure ()
  | some body =>
    rw [Check.stmt.elseBranch]
    exact hP.scope _ _ (stmt hP body h)

theorem cases (hP : Composed @P l) (parts : List (Option Expr × List Stmt))
    (h : Stmt.occurrences.occurrencesCases parts ⊆ l) : P (Check.stmt.cases parts) := by
  match parts with
  | [] =>
    rw [Check.stmt.cases]
    exact hP.pure ()
  | (value, body) :: rest =>
    obtain ⟨hvalue, hparts⟩ := List.append_subset.mp h
    obtain ⟨hbody, hrest⟩ := List.append_subset.mp hparts
    rw [Check.stmt.cases]
    refine hP.bind (hP.caseLabel value hvalue) fun _ => ?_
    exact hP.scope_bind _ _ (stmts hP body hbody) (cases hP rest hrest)

end

/-! ### Programs -/

section

variable (hP : Composed @P l)

include hP

theorem parameter (d : Declarator) (h : d.occurrences ⊆ l) : P (Check.parameter d) :=
  hP.bind (hP.declaredType d h) fun _ => hP.reject (hP.pure _)

/-- The declaration of a function has the property if the step has it that makes its signature
known. -/
theorem declareHead {head : FunctionHead} {i : Item} (hhead : i.head? = some head)
    (h : i.occurrences ⊆ l)
    (hsignature : ∀ name t vs hasBody, P (Check.signature name t vs hasBody)) :
    P (Check.declareHead head) := by
  have hparts : .type head.returnType ∈ l ∧ head.params.flatMap Declarator.occurrences ⊆ l := by
    cases i with
    | function returnType name params body =>
      cases hhead
      obtain ⟨htype, hparts⟩ := List.cons_subset.mp h
      exact ⟨htype, (List.append_subset.mp hparts).1⟩
    | prototype returnType name params =>
      cases hhead
      exact List.cons_subset.mp h
    | _ => cases hhead
  obtain ⟨htype, hparams⟩ := hparts
  refine hP.bind (hP.resolve _ htype) fun t => hP.reject (hP.bind ?_ fun vs => ?_)
  · exact hP.mapM fun d hd => hP.parameter d fun _ ho => hparams (List.mem_flatMap_of_mem hd ho)
  · exact hsignature _ _ _ _

theorem functionBody (f : Signature) (body : List Stmt)
    (h : Stmt.occurrences.occurrencesAll body ⊆ l) : P (Check.functionBody f body) := by
  have hgotos : P jumpTargets := by
    refine hP.bind hP.get fun a => ?_
    split
    · exact hP.pure ()
    · exact hP.resolveGotos _ _
  rw [functionBody_eq]
  refine hP.scope _ _ (hP.bind (hP.forM fun v _ => hP.declare v) fun _ => ?_)
  exact hP.bind (hP.stmt (.block body) h) fun _ => hgotos

/-- A piece of a program has the property if the declaration of a function or a struct that it is
has the property. -/
theorem item (i : Item) (h : i.occurrences ⊆ l)
    (hhead : ∀ head, i.head? = some head → P (Check.declareHead head))
    (hstruct : ∀ name fields, i = .struct name fields → P (Check.structDecl name fields)) :
    P (Check.item i) := by
  cases i with
  | directive token => exact hP.pure ()
  | struct name fields => exact hstruct name fields rfl
  | function returnType name params body =>
    obtain ⟨-, hbody⟩ := List.append_subset.mp (List.subset_of_cons_subset h)
    exact hP.bind (hhead _ rfl) fun f => hP.functionBody f body hbody
  | prototype returnType name params => exact hP.bind (hhead _ rfl) fun _ => hP.pure ()
  | declaration d => exact hP.each h hP.declarator

end

end Composed

namespace Declaring

variable {P : ∀ {α : Type}, Check α → Prop} {l : List Occurrence}

section

variable (hP : Declaring @P l)

include hP

theorem structField (tag : String) (decl : Nat) (d : Declarator) (h : d.occurrences ⊆ l) :
    P (Check.structField tag decl d) := by
  refine hP.bind (hP.declaredType d h) fun t => hP.reject (hP.reject ?_)
  refine hP.bind hP.get fun a => hP.reject ?_
  exact hP.structs fun structs => structs.addField decl ⟨_, t, none⟩

theorem structDecl (name : Leaf) (fields : List Declarator)
    (h : fields.flatMap Declarator.occurrences ⊆ l) : P (Check.structDecl name fields) := by
  refine hP.bind hP.get fun a => hP.bind hP.get fun a' => hP.reject ?_
  refine hP.bind (hP.structs fun _ => _) fun _ => ?_
  exact hP.each h (hP.structField _ _)

theorem item (i : Item) (h : i.occurrences ⊆ l)
    (hhead : ∀ head, i.head? = some head → P (Check.declareHead head)) : P (Check.item i) := by
  refine hP.toComposed.item i h hhead ?_
  rintro name fields rfl
  exact hP.structDecl name fields h

end

/-- What holds of all small steps of the analysis of a program, and of the declarations of its
functions, holds of the whole analysis. -/
theorem program (p : Program) (hP : Declaring @P p.occurrences)
    (hhead : ∀ i ∈ p.items, ∀ head, i.head? = some head → P (Check.declareHead head)) :
    P (Check.program p) :=
  hP.scope _ _ (hP.forM fun i hi =>
    hP.item i (fun _ ho => List.mem_flatMap_of_mem hi ho) (hhead i hi))

end Declaring

/-! ## Accepted programs -/

/-- The declared type of a variable has a pointer level for each dimension. -/
theorem exists_of_declaredType {d : Declarator} {declared : CType} {a a' : Analysis}
    (h : (declaredType d).exec a = .ok declared a') :
    ∃ t, a.structs.typeOf d.type.words = .ok t ∧ declared = t.pointers d.dims.length := by
  obtain ⟨s, b, hresolve, hrest, -⟩ := Traced.exec_bind_eq_ok h
  obtain ⟨_, c, -, hdeclared, -⟩ := Traced.exec_bind_eq_ok hrest
  obtain ⟨_, _, hget, hresolve, -⟩ := Traced.exec_bind_eq_ok hresolve
  cases hget
  cases htype : a.structs.typeOf d.type.words with
  | error e =>
    rw [htype] at hresolve
    cases hresolve
  | ok t =>
    rw [htype] at hresolve
    obtain ⟨_, e, -, hs, -⟩ := Traced.exec_bind_eq_ok hresolve
    cases hs
    cases hdeclared
    exact ⟨_, rfl, rfl⟩

/-- A program is accepted only if all its pieces are. -/
theorem exists_exec_item {p : Program} (h : p.check.1 = .ok ()) :
    ∀ i ∈ p.items, ∃ a a', (item i).exec a = .ok () a' := by
  unfold Program.check at h
  cases hexec : (program p).exec .start with
  | ok _ t =>
    obtain ⟨_, a, -, hexec, -⟩ := Traced.exec_bind_eq_ok hexec
    obtain ⟨_, b, hitems, -⟩ := Traced.exec_bind_eq_ok hexec
    exact Traced.exists_exec_of_forM hitems
  | error e t =>
    rw [hexec] at h
    cases h

end Check

end MiniC
