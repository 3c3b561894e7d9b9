import MiniC.Proofs.Closed
import MiniC.Proofs.Names.Keyed
import MiniC.Run.Program

set_option autoImplicit false

/-! # Properties of all runs

What holds of every primitive step and is kept by every way to put runs together holds of every
expression, statement, call and program. Nothing is assumed about how these are built: this is an
induction over the syntax, and over the steps that are left for loops, jumps and calls. -/

namespace MiniC.Run

/-- A closed property that the steps have which make buffers with a lasting owner. -/
structure Owning (P : ∀ {α : Type}, Run α → Prop) : Prop extends Closed @P where
  own : ∀ values, P (modifyGet fun m => m.own values)
  keepString : ∀ slot values, P (modifyGet fun m => m.keepString slot values)

/-- A property of all primitive steps but those that declare structs or functions, and of all stops
but those for a missing label, which is kept by all ways to put runs together. Of the scopes, a step
reads only what a name means. -/
structure Stepping (P : ∀ {α : Type}, Run α → Prop) : Prop extends Owning @P where
  anyStop : ∀ {α : Type} (stop : Stop), stop ≠ .badBounds → stop.isMissingLabel = false →
    P (throw stop : Run α)
  use : ∀ leaf, P (Traced.note (.use leaf) : Run Unit)
  observeName : ∀ {α : Type} (id : Nat) {f : Machine → Run α},
    (∀ m m' : Machine, m.lookup id = m'.lookup id → f m = f m') → (∀ m, P (f m)) →
    P (get >>= f)
  bindName : ∀ id t v, P (modify fun m : Machine => m.bind id t v)
  introduce : ∀ name t v, P (Run.introduce name t v)
  located : ∀ {α : Type} {x : Run α} (pos : Option Position), P x → P (located pos x)
  inScope : ∀ {α : Type} {x : Run α}, P x → P (inScope x)
  inCall : ∀ {α : Type} {x : Run α} (name : String), P x → P (inCall name x)

/-- A property of all primitive steps but those that declare structs, which is kept by all ways to
put runs together. -/
structure Composed (P : ∀ {α : Type}, Run α → Prop) : Prop extends Stepping @P where
  missingLabel : ∀ {α : Type} (name : String) (pos : Option Position),
    P (throw (.fault (.missingLabel name) pos) : Run α)
  register : ∀ f : Machine → Machine,
    (∀ m, ∃ functions prototypes, f m = { m with functions, prototypes }) →
    Machine.ScopeFree (fun m => ((f m).functions, (f m).prototypes)) → P (modify f)

/-- Whether the steps that register prototypes, and functions from `D` under their numbers, have a
property. -/
def Defines (P : ∀ {α : Type}, Run α → Prop) (D : Nat × FunctionDef → Prop) : Prop :=
  ∀ f : Machine → Machine,
    (∀ m, ∃ functions prototypes, f m = { m with functions, prototypes } ∧
      ∀ entry ∈ functions, entry ∈ m.functions ∨ D entry) →
    Machine.ScopeFree (fun m => ((f m).functions, (f m).prototypes)) → P (modify f)

/-- Whether the steps that declare structs have a property. -/
def Declares (P : ∀ {α : Type}, Run α → Prop) : Prop :=
  ∀ {α : Type} (f : StructTable → α × StructTable),
    P (modifyGet fun m : Machine => ((f m.structs).1, { m with structs := (f m.structs).2 }))

/-- A property of all primitive steps that is kept by all ways to put runs together. -/
structure Declaring (P : ∀ {α : Type}, Run α → Prop) : Prop extends Composed @P where
  declares : Declares @P

/-- A property of all runs in a context where the calls of functions from `F` have it, and states
have no other functions. -/
structure ComposedFor (P : ∀ {α : Type}, Run α → Prop) (F : FunctionDef → Prop)
    (ctx : Context) : Prop extends Stepping @P where
  observeFunctions : ∀ {α : Type} {f : Machine → Run α}, Machine.ScopeFree f →
    (∀ m : Machine, (∀ entry ∈ m.functions, F entry.2) → StopsUnless @P m.structs.Fits →
      P (f m)) → P (get >>= f)
  calls : ∀ f, F f → ∀ args pos, P (ctx.call f args pos)

/-- A property of all runs in a context whose calls have it. -/
abbrev ComposedIn (P : ∀ {α : Type}, Run α → Prop) (ctx : Context) : Prop :=
  ComposedFor @P (fun _ => True) ctx

theorem ComposedIn.call {P : ∀ {α : Type}, Run α → Prop} {ctx : Context} (hP : ComposedIn @P ctx)
    (f : FunctionDef) (args : List Value) (pos : Option Position) : P (ctx.call f args pos) :=
  hP.calls f trivial args pos

variable {P : ∀ {α : Type}, Run α → Prop} {F : FunctionDef → Prop} {D : Nat × FunctionDef → Prop}
  {α β : Type}

/-! ## Buffers with an owner -/

namespace Owning

variable (hP : Owning @P)

include hP

theorem newBuffer (owned : Bool) (values : Array Value) : P (newBuffer owned values) := by
  cases owned with
  | true => exact hP.own values
  | false => exact hP.newBuffer_unowned values

theorem newArray (owned : Bool) (elem : CType) (sizes : List Nat) :
    P (Run.newArray owned elem sizes) :=
  hP.newArrayOf (hP.newBuffer owned) (hP.zeroValue elem) elem sizes

theorem stringBuffer (leaf : Leaf) : P (Run.stringBuffer leaf) := by
  refine hP.observe (fun _ _ _ _ => rfl) fun m _ => ?_
  cases m.strings.lookup leaf.slot with
  | none => exact hP.keepString _ _
  | some handle => exact hP.pure handle

theorem literal (leaf : Leaf) (kind : LiteralKind) : P (Run.literal leaf kind) := by
  cases kind with
  | string => exact hP.bind (hP.stringBuffer leaf) fun _ => hP.pure _
  | _ => exact hP.pure _

end Owning

namespace Stepping

variable (hP : Stepping @P)

include hP

theorem anyFail {cause : Fault} (pos : Option Position) (h : cause.isMissingLabel = false) :
    P (Run.fail cause pos : Run α) :=
  hP.anyStop _ nofun h

theorem anyFailAt {cause : Fault} (pos : Position) (h : cause.isMissingLabel = false) :
    P (Run.failAt cause pos : Run α) :=
  hP.anyStop _ nofun h

/-! ## Variables -/

theorem variablePlace (name : Token) : P (Run.variablePlace name) := by
  refine hP.observeName name.id (fun m m' h => by simp only [placeOf?, h]) fun m => ?_
  cases placeOf? m name with
  | none => exact hP.anyFailAt _ rfl
  | some place => exact hP.pure place

theorem variableFor (name : Token) (v : Value) : P (Run.variableFor name v) := by
  refine hP.observeName name.id (fun m m' h => by simp only [placeOf?, h]) fun m => ?_
  cases placeOf? m name with
  | some place => exact hP.pure place
  | none =>
    refine hP.bind (hP.typeOfValue _ v) fun t => hP.bind (hP.zeroValue t) fun zero => ?_
    exact hP.bind (hP.bindName _ t zero) fun _ => hP.variablePlace name

end Stepping

namespace ComposedFor

variable {ctx : Context} (hP : ComposedFor @P F ctx)

include hP

/-! ## Expressions -/

theorem invoke (callee : Expr) {first : Option (Run Value)} {args : Run (List Value)}
    (hfirst : ∀ x ∈ first, P x) (hargs : P args) : P (Run.invoke ctx callee first args) := by
  cases callee with
  | identifier leaf =>
    refine hP.observeFunctions (fun _ _ _ _ => rfl) fun m hm _ => ?_
    split
    · rename_i f hf
      exact hP.bind hargs fun values => hP.calls f (hm _ (mem_of_lookup hf)) values _
    · split
      · refine hP.bind ?_ fun v => hP.pure _
        cases first with
        | none => exact hP.anyFailAt _ rfl
        | some x => exact hP.bind (hfirst x rfl) fun v => hP.print v
      · refine hP.observe (fun _ _ _ _ => rfl) fun m _ => ?_
        split
        · exact hP.anyFailAt _ rfl
        · exact hP.anyFailAt _ rfl
  | _ => exact hP.anyFailAt _ rfl

mutual

theorem eval (e : Expr) : P (Run.eval ctx e) := by
  cases e with
  | identifier leaf =>
    rw [Run.eval]
    refine hP.bind (hP.use leaf) fun _ => ?_
    exact hP.bind (hP.variablePlace _) fun place => hP.read place
  | literal leaf kind =>
    rw [Run.eval]
    exact hP.literal leaf kind
  | parens e =>
    rw [Run.eval]
    exact eval e
  | unary op e =>
    by_cases hop : op = .address
    · subst hop
      rw [Run.eval]
      exact hP.bind (place none e) fun place => hP.address place
    · rw [Run.eval]
      · exact hP.bind (eval e) fun v => hP.unary hop v _
      · exact hop
  | step op e =>
    rw [Run.eval]
    exact hP.bind (place none e) fun place => hP.step op place _
  | binary op left right =>
    cases op with
    | arith op =>
      rw [Run.eval]
      refine hP.bind (eval left) fun l => hP.bind (eval right) fun r => ?_
      exact hP.arith op l r _
    | relation op =>
      rw [Run.eval]
      refine hP.bind (eval left) fun l => hP.bind (eval right) fun r => ?_
      exact hP.bind (hP.lift (Value.linkageFree_compare op l r)) fun b => hP.pure _
    | logic op =>
      rw [Run.eval]
      refine hP.bind (eval left) fun l => hP.bind (hP.truth l) fun b => ?_
      split
      · exact hP.pure _
      · exact hP.bind (eval right) fun r => hP.bind (hP.truth r) fun b => hP.pure _
  | assign op left right =>
    cases op with
    | none =>
      rw [Run.eval]
      refine hP.bind (eval right) fun v => hP.bind (place (some v) left) fun place => ?_
      exact hP.assign place v _
    | some op =>
      rw [Run.eval]
      refine hP.bind (eval right) fun v => hP.bind (place none left) fun place => ?_
      exact hP.update op place v _
  | conditional cond first second =>
    rw [Run.eval]
    refine hP.bind (eval cond) fun v => hP.bind (hP.truth v) fun b => ?_
    split
    · exact eval first
    · exact eval second
  | call callee args =>
    rw [Run.eval]
    refine hP.bind (hP.invoke callee ?_ (evalAll args)) fun result => ?_
    -- A call also needs its first argument alone: an undeclared `printf` evaluates no other.
    · cases args with
      | nil => exact fun x hx => by cases hx
      | cons e rest =>
        rintro x ⟨⟩
        exact eval e
    · cases result with
      | none => exact hP.anyFailAt _ rfl
      | some v => exact hP.pure v
  | index base i =>
    rw [Run.eval]
    refine hP.bind (eval base) fun b => hP.bind (eval i) fun v => ?_
    exact hP.bind (hP.element _ b v) fun place => hP.read place
  | member e field =>
    rw [Run.eval]
    refine hP.bind (eval e) fun v => hP.bind (hP.member _ _ v) fun place => hP.read place
  | arrow e field =>
    rw [Run.eval]
    refine hP.bind (eval e) fun v => hP.bind (hP.arrow _ _ v) fun place => hP.read place
  | sizeOf type =>
    rw [Run.eval]
    exact hP.sizeNamed _ type
  | cast type e =>
    rw [Run.eval]
    refine hP.bind (hP.resolve _ type) fun t => hP.bind (eval e) fun v => ?_
    exact hP.convert t v _
  | list head tail =>
    rw [Run.eval]
    exact hP.anyFailAt _ rfl

theorem place (new : Option Value) (e : Expr) : P (Run.place ctx new e) := by
  cases e with
  | identifier leaf =>
    cases new with
    | none => exact hP.bind (hP.use leaf) fun _ => hP.variablePlace _
    | some v => exact hP.bind (hP.use leaf) fun _ => hP.variableFor _ v
  | parens e =>
    rw [Run.place]
    exact place new e
  | unary op e =>
    cases op with
    | deref =>
      rw [Run.place]
      exact hP.bind (eval e) fun v => hP.target _ v
    | _ => exact hP.anyFailAt _ rfl
  | index base i =>
    rw [Run.place]
    exact hP.bind (eval base) fun b => hP.bind (eval i) fun v => hP.element _ b v
  | member e field =>
    rw [Run.place]
    exact hP.bind (eval e) fun v => hP.member _ _ v
  | arrow e field =>
    rw [Run.place]
    exact hP.bind (eval e) fun v => hP.arrow _ _ v
  | _ => exact hP.anyFailAt _ rfl

theorem evalAll (args : List Expr) : P (Run.evalAll ctx args) := by
  cases args with
  | nil => exact hP.pure _
  | cons e rest =>
    rw [Run.evalAll]
    exact hP.bind (eval e) fun v => hP.bind (evalAll rest) fun values => hP.pure _

end

/-! ## Declarations -/

/-- All expressions will do for the items of an initializer. -/
theorem items : Closed.Items @P (fun _ => True) (Run.eval ctx) :=
  ⟨fun _ => hP.eval _, fun _ _ _ => trivial⟩

theorem declaredType (known : Nat → Option CType) (d : Declarator) :
    P (Run.declaredType known d) :=
  hP.bind (hP.resolve known d.type) fun _ => hP.pure _

theorem arraySizes (d : Declarator) (init : Option Expr) :
    P (Run.arraySizes (Run.eval ctx) d init) :=
  hP.toClosed.arraySizes hP.items (fun _ _ => trivial) init

theorem declareArray (d : Declarator) (elem : CType) : P (Run.declareArray ctx d elem) := by
  refine hP.bind (hP.arraySizes d d.init) fun sizes => ?_
  refine hP.bind (hP.declaredType _ d) fun t => hP.bind (hP.newArray true elem sizes) ?_
  intro array
  cases d.init with
  | none => exact hP.introduce _ t _
  | some init =>
    refine hP.bind (hP.toClosed.fillArray hP.items array elem sizes init trivial) fun _ => ?_
    exact hP.introduce _ t _

theorem declareZero (d : Declarator) (t : CType) : P (Run.declareZero d t) := by
  unfold Run.declareZero
  split
  · refine hP.bind (hP.anyFailAt _ rfl) fun _ => hP.bind (hP.zeroValue t) fun v => ?_
    exact hP.introduce _ t v
  · exact hP.bind (hP.zeroValue t) fun v => hP.introduce _ t v

theorem fillStruct (t : CType) (init : Expr) (v : Value) : P (Run.fillStruct ctx t init v) := by
  cases v with
  | record id => exact hP.toClosed.fillRecord hP.items id t init trivial
  | _ => exact hP.pure _

theorem declareRecord (d : Declarator) (t : CType) (init : Expr) :
    P (Run.declareRecord ctx d t init) := by
  have hfill : P (do
      let v ← Run.zeroValue t
      Run.fillStruct ctx t init v
      Run.introduce d.name t v) :=
    hP.bind (hP.zeroValue t) fun v =>
      hP.bind (hP.fillStruct t init v) fun _ => hP.introduce _ t v
  unfold Run.declareRecord
  split
  · exact hP.bind (hP.anyFailAt _ rfl) fun _ => hfill
  · exact hfill

theorem declareValue (d : Declarator) (t : CType) (init : Expr) :
    P (Run.declareValue ctx d t init) := by
  refine hP.bind (hP.eval init) fun v => ?_
  dsimp only
  split
  · refine hP.bind (hP.typeOfValue _ v) fun t => hP.bind (hP.convert t v _) fun v => ?_
    exact hP.introduce _ t v
  · refine hP.bind (hP.pure t) fun t => hP.bind (hP.convert t v _) fun v => ?_
    exact hP.introduce _ t v

theorem declarator (d : Declarator) : P (Run.declarator ctx d) := by
  refine hP.bind (hP.resolve _ d.type) fun t => ?_
  split
  · exact hP.declareArray d t
  · split
    · exact hP.declareZero d t
    · split
      · exact hP.declareRecord d t _
      · exact hP.declareValue d t _

theorem declaration (d : Declaration) : P (Run.declaration ctx d) :=
  hP.forM fun d _ => hP.declarator d

/-! ## Instructions -/

theorem bareInstr (i : Instr) : P (Run.bareInstr ctx i) := by
  cases i with
  | expr e =>
    have heval : P (do
        let _ ← Run.eval ctx e
        pure Signal.normal) := hP.bind (hP.eval e) fun _ => hP.pure _
    cases e with
    | call callee args =>
      refine hP.bind (hP.invoke callee ?_ (hP.evalAll args)) fun _ => hP.pure _
      cases args with
      | nil => exact fun x hx => by cases hx
      | cons e rest =>
        rintro x ⟨⟩
        exact hP.eval e
    | _ => exact heval
  | declare d => exact hP.bind (hP.declaration d) fun _ => hP.pure _
  | «break» token | «continue» token | goto label => exact hP.pure _
  | «return» value =>
    cases value with
    | none => exact hP.pure _
    | some e => exact hP.bind (hP.eval e) fun v => hP.pure _

theorem instr (i : Instr) : P (Run.instr ctx i) :=
  hP.located _ (hP.bareInstr i)

end ComposedFor

/-! ## Control -/

namespace Stepping

variable (hP : Stepping @P)

include hP

theorem onward (signal : Signal) {next : Run Signal} (h : P next) :
    P (Run.onward signal next) := by
  cases signal with
  | normal => exact h
  | _ => exact hP.pure _

theorem turn {body next : Run Signal} (hbody : P body) (hnext : P next) :
    P (Run.turn body next) := by
  refine hP.bind hbody fun signal => ?_
  cases signal with
  | normal | «continue» => exact hnext
  | _ => exact hP.pure _

theorem loop {test : Run Bool} {body : Run Signal} {step : Run Unit} (htest : P test)
    (hbody : P body) (hstep : P step) (fuel : Nat) (bodyFirst : Bool) :
    P (Run.loop test body step fuel bodyFirst) := by
  induction fuel generalizing bodyFirst with
  | zero => exact hP.anyStop _ nofun rfl
  | succ fuel ih =>
    have hturn : ∀ b : Bool, P (if b then Run.turn body do
        step
        Run.loop test body step fuel false
      else pure .normal) := by
      intro b
      cases b with
      | false => exact hP.pure _
      | true => exact hP.turn hbody (hP.bind hstep fun _ => ih false)
    rw [Run.loop]
    split
    · exact hP.bind (hP.pure _) hturn
    · exact hP.bind htest hturn

theorem jumping {resume : String → Option (Run Signal)} {start : Run Signal}
    (hresume : ∀ name, ∀ next ∈ resume name, P next) (hstart : P start) (fuel : Nat) :
    P (Run.jumping resume fuel start) := by
  induction fuel generalizing start with
  | zero => exact hP.anyStop _ nofun rfl
  | succ fuel ih =>
    refine hP.bind hstart fun signal => ?_
    cases signal with
    | goto label =>
      dsimp only
      split
      · exact hP.pure _
      · rename_i next hnext
        exact ih (hresume _ next hnext)
    | _ => exact hP.pure _

end Stepping

namespace ComposedFor

variable {ctx : Context} (hP : ComposedFor @P F ctx)

include hP

theorem instrs (is : List Instr) : P (Run.instrs ctx is) := by
  induction is with
  | nil => exact hP.pure _
  | cons i is ih => exact hP.bind (hP.instr i) fun signal => hP.onward signal ih

theorem instrValue (i : Instr) : P (Run.instrValue ctx i) := by
  cases i with
  | expr e => exact hP.eval e
  | _ => exact hP.anyFail _ rfl

theorem loopTest (cond : Option Instr) : P (Run.loopTest ctx cond) := by
  cases cond with
  | none => exact hP.pure _
  | some i => exact hP.bind (hP.instrValue i) fun v => hP.truth v

theorem loopStep (step : Option Instr) : P (Run.loopStep ctx step) := by
  cases step with
  | none => exact hP.pure _
  | some i => exact hP.bind (hP.instrValue i) fun _ => hP.pure _

theorem loopStart (init : Option Instr) : P (Run.loopStart ctx init) := by
  cases init with
  | none => exact hP.pure _
  | some i => exact hP.bind (hP.instr i) fun _ => hP.pure _

theorem isChosen (selector : Value) (label : Option Expr) :
    P (Run.isChosen ctx selector label) := by
  cases label with
  | none => exact hP.pure _
  | some label =>
    exact hP.bind (hP.eval label) fun v => hP.lift (Value.linkageFree_compare .eq selector v)

/-! ## Statements -/

theorem block {body : List Stmt} {fuel : Nat} (hstmts : P (Run.stmts ctx fuel body))
    (hresume : ∀ name, ∀ next ∈ Run.resume ctx fuel body name, P next) :
    P (Run.inScope (Run.jumping (Run.resume ctx fuel body) fuel (Run.stmts ctx fuel body))) :=
  hP.inScope (hP.jumping hresume hstmts fuel)

end ComposedFor

namespace ComposedFor

variable {ctx : Context}

mutual

theorem stmt (hP : ComposedFor @P F ctx) (fuel : Nat) (s : Stmt) : P (Run.stmt ctx fuel s) := by
  cases s with
  | block body =>
    rw [Run.stmt]
    exact hP.block (stmts hP fuel body) (resume hP fuel body)
  | line is =>
    rw [Run.stmt]
    exact hP.instrs is
  | label name => exact hP.pure _
  | branches conditional otherwise =>
    rw [Run.stmt]
    refine branches hP fuel ?_ conditional
    cases otherwise with
    | none => exact hP.pure _
    | some body => exact stmt hP fuel body
  | «while» cond body =>
    rw [Run.stmt]
    refine hP.inScope (hP.loop ?_ (stmt hP fuel body) (hP.pure _) fuel _)
    exact hP.bind (hP.eval cond) fun v => hP.truth v
  | doWhile cond body =>
    rw [Run.stmt]
    refine hP.inScope (hP.loop ?_ (stmt hP fuel body) (hP.pure _) fuel _)
    exact hP.bind (hP.eval cond) fun v => hP.truth v
  | «for» init cond step body =>
    rw [Run.stmt]
    refine hP.inScope (hP.bind (hP.loopStart init) fun _ => hP.inScope ?_)
    exact hP.loop (hP.loopTest cond) (stmt hP fuel body) (hP.loopStep step) fuel _
  | «switch» selector parts =>
    rw [Run.stmt]
    exact hP.bind (hP.eval selector) fun v => switchCases hP fuel v parts

theorem stmts (hP : ComposedFor @P F ctx) (fuel : Nat) (body : List Stmt) :
    P (Run.stmts ctx fuel body) := by
  cases body with
  | nil => exact hP.pure _
  | cons s rest =>
    rw [Run.stmts]
    exact hP.bind (stmt hP fuel s) fun signal => hP.onward signal (stmts hP fuel rest)

theorem resume (hP : ComposedFor @P F ctx) (fuel : Nat) (body : List Stmt) :
    ∀ name, ∀ next ∈ Run.resume ctx fuel body name, P next := by
  cases body with
  | nil => exact fun name next hnext => by cases hnext
  | cons s rest =>
    intro name next hnext
    rw [Run.resume] at hnext
    cases hrest : Run.resume ctx fuel rest name with
    | some later =>
      rw [hrest] at hnext
      cases hnext
      exact resume hP fuel rest name _ hrest
    | none =>
      rw [hrest] at hnext
      dsimp only at hnext
      split at hnext
      · cases hnext
        exact stmts hP fuel rest
      · cases hnext

theorem branches (hP : ComposedFor @P F ctx) (fuel : Nat) {otherwise : Run Signal}
    (hotherwise : P otherwise) (conditional : List (Expr × Stmt)) :
    P (Run.branches ctx fuel otherwise conditional) := by
  cases conditional with
  | nil => exact hotherwise
  | cons branch rest =>
    obtain ⟨cond, body⟩ := branch
    rw [Run.branches]
    refine hP.bind (hP.eval cond) fun v => hP.bind (hP.truth v) fun b => ?_
    split
    · exact stmt hP fuel body
    · exact branches hP fuel hotherwise rest

theorem switchCases (hP : ComposedFor @P F ctx) (fuel : Nat) (selector : Value)
    (parts : List (Option Expr × List Stmt)) : P (Run.cases ctx fuel selector parts) := by
  cases parts with
  | nil => exact hP.pure _
  | cons part rest =>
    obtain ⟨label, body⟩ := part
    rw [Run.cases]
    refine hP.bind (hP.isChosen selector label) fun b => ?_
    split
    · exact hP.bind (hP.block (stmts hP fuel body) (resume hP fuel body)) fun signal => hP.pure _
    · exact switchCases hP fuel selector rest

end

end ComposedFor

/-! ## Calls -/

namespace Stepping

variable (hP : Stepping @P)

include hP

theorem bindParams (known : Nat → Option CType) (params : List Declarator) (args : List Value) :
    P (Run.bindParams known params args) := by
  induction params generalizing args with
  | nil => exact hP.pure _
  | cons d params ih =>
    cases args with
    | nil => exact hP.pure _
    | cons v args =>
      rw [Run.bindParams]
      refine hP.bind ?_ fun t => hP.bind (hP.convert t v _) fun v => ?_
      · exact hP.bind (hP.resolve known d.type) fun _ => hP.pure _
      · exact hP.bind (hP.introduce _ t v) fun _ => ih args

/-- A missing label is the only stop that not all steps may end with. -/
theorem callResult (f : FunctionDef) (pos : Option Position) {signal : Signal}
    (hsignal : ∀ label, signal = .goto label →
      P (throw (.fault (.missingLabel label.text) (some label.pos)) : Run (Option Value))) :
    P (Run.callResult f pos signal) := by
  cases signal with
  | normal => exact hP.pure _
  | «break» => exact hP.anyFail _ rfl
  | «continue» => exact hP.anyFail _ rfl
  | goto label => exact hsignal label rfl
  | «return» value =>
    cases value with
    | none => exact hP.pure _
    | some v =>
      rw [Run.callResult]
      split
      · exact hP.pure _
      · exact hP.bind (hP.convert _ v pos) fun v => hP.pure _

/-- A call has the property if what it does inside the function has it, with the result. -/
theorem call_of_inside {known : Nat → Option CType} {fuel : Nat} {f : FunctionDef}
    {args : List Value} {pos : Option Position}
    (hinside : P (do
      let signal ← Run.inCall f.name do
        Run.bindParams known f.params args
        Run.stmt ⟨known, Run.call known fuel⟩ fuel (.block f.body)
      Run.callResult f pos signal)) :
    P (Run.call known (fuel + 1) f args pos) := by
  have hdepth : P (do
      if maxDepth ≤ (← get).depth then Run.fail .callOverflow pos
      let signal ← Run.inCall f.name do
        Run.bindParams known f.params args
        Run.stmt ⟨known, Run.call known fuel⟩ fuel (.block f.body)
      Run.callResult f pos signal) := by
    refine hP.observe (fun _ _ _ _ => rfl) fun m _ => ?_
    dsimp only
    split
    · exact hP.bind (hP.anyFail _ rfl) fun _ => hinside
    · exact hinside
  rw [Run.call]
  split
  · exact hP.bind (hP.anyFail _ rfl) fun _ => hdepth
  · exact hdepth

end Stepping

namespace Composed

variable (hP : Composed @P)

include hP

/-- A context in which all calls have the property. -/
theorem inContext {ctx : Context} (hcall : ∀ f args pos, P (ctx.call f args pos)) :
    ComposedIn @P ctx :=
  ⟨hP.toStepping, fun hfree hf => hP.observe hfree fun m => hf m fun _ _ => trivial,
    fun f _ => hcall f⟩

/-- A call has the property; its body is executed in a context of calls with one step less. -/
theorem call (known : Nat → Option CType) (fuel : Nat) (f : FunctionDef) (args : List Value)
    (pos : Option Position) : P (Run.call known fuel f args pos) := by
  induction fuel generalizing f args pos with
  | zero => exact hP.anyStop _ nofun rfl
  | succ fuel ih =>
    refine hP.call_of_inside (hP.bind (hP.inCall f.name ?_) fun signal => ?_)
    · exact hP.bind (hP.bindParams known f.params args) fun _ => (hP.inContext ih).stmt fuel _
    · exact hP.callResult f pos fun label _ => hP.missingLabel _ _

theorem context (known : Nat → Option CType) (fuel : Nat) :
    ComposedIn @P ⟨known, Run.call known fuel⟩ :=
  hP.inContext (hP.call known fuel)

theorem defines : Defines @P fun _ => True :=
  fun f hf => hP.register f fun m =>
    let ⟨functions, prototypes, h⟩ := hf m
    ⟨functions, prototypes, h.1⟩

end Composed

/-! ## Programs -/

namespace ComposedFor

variable {ctx : Context} (hP : ComposedFor @P F ctx)

include hP

theorem structField (hdeclares : Declares @P) (decl : Nat) (d : Declarator) :
    P (Run.structField ctx decl d) := by
  have hadd (field : Field) :
      P (modify fun m => { m with structs := m.structs.addField decl field }) :=
    hdeclares fun structs => (PUnit.unit, structs.addField decl field)
  refine hP.bind (hP.declaredType _ d) fun t => hP.bind (hadd _) fun _ => ?_
  split
  · exact hP.bind (hP.arraySizes d none) fun sizes => hadd _
  · exact hP.pure _

theorem structDecl (hdeclares : Declares @P) (name : Leaf) (fields : List Declarator) :
    P (Run.structDecl ctx name fields) := by
  refine hP.bind (hdeclares fun structs => structs.declare name.token.text) fun decl => ?_
  exact hP.forM fun d _ => hP.structField hdeclares decl d

theorem item (hdefines : Defines @P D) (i : Item)
    (hstruct : ∀ name fields, i = .struct name fields → P (Run.structDecl ctx name fields))
    (hfunction : ∀ returnType name params body t, i = .function returnType name params body →
      D (name.token.id, ⟨name.token.text, params, body, t⟩)) :
    P (Run.item ctx i) := by
  cases i with
  | directive token => exact hP.pure _
  | struct name fields => exact hstruct name fields rfl
  | function returnType name params body =>
    refine hP.bind (hP.resolve _ returnType) fun t => ?_
    refine hdefines _ (fun m => ⟨_, _, rfl, fun entry hentry => ?_⟩) fun _ _ _ _ => rfl
    rcases mem_setUnder hentry with rfl | hentry
    · exact .inr (hfunction _ _ _ _ t rfl)
    · exact .inl hentry
  | prototype returnType name params =>
    exact hdefines _ (fun m => ⟨_, _, rfl, fun entry => .inl⟩) fun _ _ _ _ => rfl
  | declaration d => exact hP.declaration d

end ComposedFor

/-- The call of the function `main` after all pieces of the program are registered. -/
theorem ComposedFor.main {known : Nat → Option CType} {fuel : Nat}
    (hP : ComposedFor @P F ⟨known, Run.call known fuel⟩) (pos : Option Position) : P (do
      match mainFunction? (← get).functions with
      | none => Run.fail .noMain none
      | some f => do
        modify fun m : Machine => { m with events := m.events.push .started }
        let _ ← Run.call known fuel f [] pos
        pure ()) := by
  refine hP.observeFunctions (fun _ _ _ _ => rfl) fun m hm _ => ?_
  cases hmain : mainFunction? m.functions with
  | none => exact hP.anyFail _ rfl
  | some f =>
    obtain ⟨entry, hentry, rfl⟩ :=
      List.mem_map.mp (List.mem_reverse.mp (List.mem_of_find?_eq_some hmain))
    refine hP.bind (hP.change (fun m => ?_) fun _ _ _ _ => rfl) fun _ => ?_
    · exact ⟨_, _, _, Nat.le_refl _, rfl⟩
    exact hP.bind (hP.calls entry.2 (hm entry hentry) [] _) fun _ => hP.pure _

/-- What holds of all pieces of a program, with the functions that they register, and of the calls
of these functions holds of the run. -/
theorem ComposedFor.program {known : Nat → Option CType} {fuel : Nat}
    (hP : ComposedFor @P F ⟨known, Run.call known fuel⟩) (hdeclares : Declares @P)
    (hdefines : Defines @P D) (p : Program)
    (hp : ∀ returnType name params body t, .function returnType name params body ∈ p.items →
      D (name.token.id, ⟨name.token.text, params, body, t⟩)) :
    P (Run.program known fuel p) := by
  refine hP.bind (hP.forM fun i hi => ?_) fun _ => hP.main _
  refine hP.item hdefines i (fun name fields _ => hP.structDecl hdeclares name fields) ?_
  rintro returnType name params body t rfl
  exact hp returnType name params body t hi

theorem Declaring.program (hP : Declaring @P) (known : Nat → Option CType) (fuel : Nat)
    (p : Program) : P (Run.program known fuel p) :=
  (hP.context known fuel).program hP.declares hP.defines p fun _ _ _ _ _ _ => trivial

end MiniC.Run
