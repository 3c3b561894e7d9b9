import MiniC.Proofs.Trace
import MiniC.Run.Stmt

set_option autoImplicit false

/-! # The activity of a call

A run notes the names that it looks up and the calls that it makes. What one call does itself is
another matter: it executes the instructions of its body and evaluates the expressions that its
statements depend on, and the calls that these make are none of its own doing. Statements are
executed here once more with such a trace. They do the same as in a run. -/

namespace MiniC

/-! ## How instructions end -/

/-- Whether an instruction may end with a signal. -/
def Instr.EndsWith : Instr → Signal → Prop
  | .break _, .break | .continue _, .continue | .return _, .return _ => True
  | .goto label, .goto token => label.token = token
  | .expr _, .normal | .declare _, .normal => True
  | _, _ => False

theorem Run.endsWith_of_instr {ctx : Context} {i : Instr} {m t : Machine} {signal : Signal}
    (h : (Run.instr ctx i).exec m = .ok signal t) : i.EndsWith signal := by
  have hbare : (Run.bareInstr ctx i).exec m = .ok signal t := by
    simp only [Run.instr, Run.located, Traced.mapError] at h
    split at h
    · rename_i hexec
      cases h
      exact hexec
    · cases h
  cases i with
  | expr e =>
    cases e <;>
      · obtain ⟨_, _, -, h, -⟩ := Traced.exec_bind_eq_ok hbare
        cases h
        trivial
  | declare d =>
    obtain ⟨_, _, -, h, -⟩ := Traced.exec_bind_eq_ok hbare
    cases h
    trivial
  | «break» _ | «continue» _ =>
    cases hbare
    trivial
  | goto label =>
    cases hbare
    exact rfl
  | «return» value =>
    cases value with
    | none =>
      cases hbare
      trivial
    | some e =>
      obtain ⟨_, _, -, h, -⟩ := Traced.exec_bind_eq_ok hbare
      cases h
      trivial

/-! ## Calls -/

/-- What a call of a function does at a moment. -/
inductive CallStep
  /-- It begins to execute an instruction, or to evaluate one in the header of a loop. -/
  | instr (i : Instr)
  /-- It begins to evaluate an expression of a statement that belongs to no instruction. -/
  | expr (e : Expr)
  /-- It has executed a return, with this value. -/
  | answer (v : Option Value)

/-- A part of a call. -/
abbrev Activity := Traced Stop Machine CallStep

namespace Activity

variable {α : Type}

/-- A computation of which nothing counts as a step. -/
def silent (x : Run α) : Activity α where
  exec := x.exec
  trace _ := []

/-- A computation that begins a step. -/
def begin (step : CallStep) (x : Run α) : Activity α := do
  Traced.note step
  silent x

/-- The steps of a part of a call that begins in a state. -/
def steps (x : Activity α) (m : Machine) : List CallStep :=
  (x.trace m).filterMap (·.deed)

/-! ## Instructions and expressions -/

/-- Executes an instruction. -/
def instr (ctx : Context) (i : Instr) : Activity Signal := do
  match ← begin (.instr i) (Run.instr ctx i) with
  | .return v => do
    Traced.note (.answer v)
    pure (.return v)
  | signal => pure signal

/-- Executes instructions one after another. -/
def instrs (ctx : Context) : List Instr → Activity Signal
  | [] => pure .normal
  | i :: rest => do Run.onward (← instr ctx i) (instrs ctx rest)

/-- Whether an expression holds. -/
def holds (ctx : Context) (e : Expr) : Activity Bool :=
  begin (.expr e) do Run.truth (← Run.eval ctx e)

/-- Whether the condition of a loop holds; a condition that is left out does. -/
def loopTest (ctx : Context) : Option Instr → Activity Bool
  | none => pure true
  | some i => begin (.instr i) (Run.loopTest ctx (some i))

/-- Executes the step of a loop, which may be left out. -/
def loopStep (ctx : Context) : Option Instr → Activity Unit
  | none => pure ()
  | some i => begin (.instr i) (Run.loopStep ctx (some i))

/-- Executes the initial instruction of a loop, which may be left out. Its signal is dropped. -/
def loopStart (ctx : Context) : Option Instr → Activity Unit
  | none => pure ()
  | some i => do
    let _ ← instr ctx i
    pure ()

/-- Whether a case with the given label is chosen; the default case has no label. -/
def isChosen (ctx : Context) (selector : Value) : Option Expr → Activity Bool
  | none => pure true
  | some label => begin (.expr label) (Run.isChosen ctx selector (some label))

/-! ## Statements -/

mutual

/-- Executes a statement. -/
def stmt (ctx : Context) (fuel : Nat) : Stmt → Activity Signal
  | .block body =>
    Run.inScope (Run.jumping (resume ctx fuel body) fuel (stmts ctx fuel body))
  | .line is => instrs ctx is
  | .label _ => pure .normal
  | .branches conditional otherwise =>
    branches ctx fuel (otherBranch ctx fuel otherwise) conditional
  | .while cond body =>
    Run.inScope (Run.loop (holds ctx cond) (stmt ctx fuel body) (pure ()) fuel false)
  | .doWhile cond body =>
    Run.inScope (Run.loop (holds ctx cond) (stmt ctx fuel body) (pure ()) fuel true)
  | .for init cond step body =>
    Run.inScope do
      loopStart ctx init
      Run.inScope
        (Run.loop (loopTest ctx cond) (stmt ctx fuel body) (loopStep ctx step) fuel false)
  | .switch selector parts => do
    cases ctx fuel (← begin (.expr selector) (Run.eval ctx selector)) parts

/-- Executes statements one after another. -/
def stmts (ctx : Context) (fuel : Nat) : List Stmt → Activity Signal
  | [] => pure .normal
  | s :: rest => do Run.onward (← stmt ctx fuel s) (stmts ctx fuel rest)

/-- What comes after the last label with the given name among statements. -/
def resume (ctx : Context) (fuel : Nat) : List Stmt → String → Option (Activity Signal)
  | [], _ => none
  | s :: rest, name =>
    match resume ctx fuel rest name with
    | some next => some next
    | none => if Run.isLabel name s then some (stmts ctx fuel rest) else none

/-- Executes the branch of the first condition that holds, or `otherwise`. -/
def branches (ctx : Context) (fuel : Nat) (otherwise : Activity Signal) :
    List (Expr × Stmt) → Activity Signal
  | [] => otherwise
  | (cond, body) :: rest => do
    if ← holds ctx cond then stmt ctx fuel body
    else branches ctx fuel otherwise rest

/-- Executes the branch for no condition, if there is one. -/
def otherBranch (ctx : Context) (fuel : Nat) : Option Stmt → Activity Signal
  | none => pure .normal
  | some body => stmt ctx fuel body

/-- Executes the first case that is chosen. -/
def cases (ctx : Context) (fuel : Nat) (selector : Value) :
    List (Option Expr × List Stmt) → Activity Signal
  | [] => pure .normal
  | (label, body) :: rest => do
    if ← isChosen ctx selector label then
      return Run.afterCase
        (← Run.inScope (Run.jumping (resume ctx fuel body) fuel (stmts ctx fuel body)))
    else cases ctx fuel selector rest

end

/-- What a call of a function does between entering and leaving it. -/
def call (known : Nat → Option CType) (fuel : Nat) (f : FunctionDef) (args : List Value) :
    Activity Signal := do
  silent (Run.bindParams known f.params args)
  stmt ⟨known, Run.call known fuel⟩ fuel (.block f.body)

/-! ## The same as in a run -/

section Combined

variable {δ δ' : Type}

theorem exec_bind_congr {β : Type} {x : Traced Stop Machine δ α} {x' : Traced Stop Machine δ' α}
    {f : α → Traced Stop Machine δ β} {f' : α → Traced Stop Machine δ' β}
    (hx : x.exec = x'.exec) (hf : ∀ a, (f a).exec = (f' a).exec) :
    (x >>= f).exec = (x' >>= f').exec := by
  funext m
  have hm := congrFun hx m
  cases h : x.exec m with
  | ok a t =>
    rw [Traced.exec_bind_of_ok f h, Traced.exec_bind_of_ok f' (hm ▸ h), hf a]
  | error stop t =>
    rw [Traced.exec_bind_of_error f h, Traced.exec_bind_of_error f' (hm ▸ h)]

theorem exec_inScope_congr {x : Traced Stop Machine δ α} {x' : Traced Stop Machine δ' α}
    (hx : x.exec = x'.exec) : (Run.inScope x).exec = (Run.inScope x').exec := by
  simp only [Run.inScope, Traced.between, hx]

variable {next body : Traced Stop Machine δ Signal} {next' body' : Traced Stop Machine δ' Signal}

theorem exec_onward_congr (signal : Signal) (hnext : next.exec = next'.exec) :
    (Run.onward signal next).exec = (Run.onward signal next').exec := by
  cases signal with
  | normal => exact hnext
  | _ => rfl

theorem exec_turn_congr (hbody : body.exec = body'.exec) (hnext : next.exec = next'.exec) :
    (Run.turn body next).exec = (Run.turn body' next').exec := by
  refine exec_bind_congr hbody fun signal => ?_
  cases signal with
  | normal | «continue» => exact hnext
  | _ => rfl

theorem exec_loop_congr {test : Traced Stop Machine δ Bool} {test' : Traced Stop Machine δ' Bool}
    {step : Traced Stop Machine δ Unit} {step' : Traced Stop Machine δ' Unit}
    (htest : test.exec = test'.exec) (hbody : body.exec = body'.exec)
    (hstep : step.exec = step'.exec) (fuel : Nat) (bodyFirst : Bool) :
    (Run.loop test body step fuel bodyFirst).exec =
      (Run.loop test' body' step' fuel bodyFirst).exec := by
  induction fuel generalizing bodyFirst with
  | zero => rfl
  | succ fuel ih =>
    have hfirst : (if bodyFirst then pure true else test).exec =
        (if bodyFirst then pure true else test').exec := by
      cases bodyFirst with
      | false => exact htest
      | true => rfl
    refine exec_bind_congr hfirst fun goOn => ?_
    cases goOn with
    | false => rfl
    | true => exact exec_turn_congr hbody (exec_bind_congr hstep fun _ => ih false)

/-- Jumps to the same labels do the same. -/
theorem exec_jumping_congr {resume : String → Option (Traced Stop Machine δ Signal)}
    {resume' : String → Option (Traced Stop Machine δ' Signal)}
    {start : Traced Stop Machine δ Signal} {start' : Traced Stop Machine δ' Signal}
    (hresume : ∀ name, Option.Rel (fun x x' => x.exec = x'.exec) (resume name) (resume' name))
    (hstart : start.exec = start'.exec) (fuel : Nat) :
    (Run.jumping resume fuel start).exec = (Run.jumping resume' fuel start').exec := by
  induction fuel generalizing start start' with
  | zero => rfl
  | succ fuel ih =>
    refine exec_bind_congr hstart fun signal => ?_
    cases signal with
    | goto label =>
      have hlabel := hresume label.text
      dsimp only
      generalize resume label.text = next at hlabel ⊢
      generalize resume' label.text = next' at hlabel ⊢
      cases hlabel with
      | none => rfl
      | some hnext => exact ih hnext
    | _ => rfl

end Combined

variable (ctx : Context)

theorem exec_begin (step : CallStep) (x : Run α) : (begin step x).exec = x.exec := by
  funext m
  rw [begin, Traced.exec_bind_of_ok _ (Traced.exec_note step m), silent]

/-! ### Instructions and expressions -/

theorem exec_instr (i : Instr) : (instr ctx i).exec = (Run.instr ctx i).exec := by
  rw [← bind_pure (Run.instr ctx i)]
  refine exec_bind_congr (exec_begin _ _) fun signal => ?_
  cases signal <;> rfl

theorem exec_instrs (is : List Instr) : (instrs ctx is).exec = (Run.instrs ctx is).exec := by
  induction is with
  | nil => rfl
  | cons i is ih =>
    exact exec_bind_congr (exec_instr ctx i) fun signal => exec_onward_congr signal ih

theorem exec_loopTest (cond : Option Instr) :
    (loopTest ctx cond).exec = (Run.loopTest ctx cond).exec := by
  cases cond with
  | none => rfl
  | some i => exact exec_begin _ _

theorem exec_loopStep (step : Option Instr) :
    (loopStep ctx step).exec = (Run.loopStep ctx step).exec := by
  cases step with
  | none => rfl
  | some i => exact exec_begin _ _

theorem exec_loopStart (init : Option Instr) :
    (loopStart ctx init).exec = (Run.loopStart ctx init).exec := by
  cases init with
  | none => rfl
  | some i => exact exec_bind_congr (exec_instr ctx i) fun _ => rfl

theorem exec_isChosen (selector : Value) (label : Option Expr) :
    (isChosen ctx selector label).exec = (Run.isChosen ctx selector label).exec := by
  cases label with
  | none => rfl
  | some label => exact exec_begin _ _

/-! ### Statements -/

mutual

theorem exec_stmt (fuel : Nat) (s : Stmt) :
    (stmt ctx fuel s).exec = (Run.stmt ctx fuel s).exec := by
  cases s with
  | block body =>
    rw [stmt, Run.stmt]
    exact exec_inScope_congr
      (exec_jumping_congr (exec_resume fuel body) (exec_stmts fuel body) fuel)
  | line is =>
    rw [stmt, Run.stmt]
    exact exec_instrs ctx is
  | label name => rfl
  | branches conditional otherwise =>
    rw [stmt, Run.stmt]
    refine exec_branches fuel ?_ conditional
    cases otherwise with
    | none => rfl
    | some body => exact exec_stmt fuel body
  | «while» cond body =>
    rw [stmt, Run.stmt]
    exact exec_inScope_congr (exec_loop_congr (exec_begin _ _) (exec_stmt fuel body) rfl fuel _)
  | doWhile cond body =>
    rw [stmt, Run.stmt]
    exact exec_inScope_congr (exec_loop_congr (exec_begin _ _) (exec_stmt fuel body) rfl fuel _)
  | «for» init cond step body =>
    rw [stmt, Run.stmt]
    refine exec_inScope_congr (exec_bind_congr (exec_loopStart ctx init) fun _ => ?_)
    exact exec_inScope_congr (exec_loop_congr (exec_loopTest ctx cond) (exec_stmt fuel body)
      (exec_loopStep ctx step) fuel _)
  | «switch» selector parts =>
    rw [stmt, Run.stmt]
    exact exec_bind_congr (exec_begin _ _) fun v => exec_cases fuel v parts

theorem exec_stmts (fuel : Nat) (body : List Stmt) :
    (stmts ctx fuel body).exec = (Run.stmts ctx fuel body).exec := by
  cases body with
  | nil => rfl
  | cons s rest =>
    rw [stmts, Run.stmts]
    exact exec_bind_congr (exec_stmt fuel s) fun signal =>
      exec_onward_congr signal (exec_stmts fuel rest)

theorem exec_resume (fuel : Nat) (body : List Stmt) (name : String) :
    Option.Rel (fun x x' => x.exec = x'.exec) (resume ctx fuel body name)
      (Run.resume ctx fuel body name) := by
  cases body with
  | nil => exact .none
  | cons s rest =>
    have hrest := exec_resume fuel rest name
    have hstmts := exec_stmts fuel rest
    rw [resume, Run.resume]
    generalize resume ctx fuel rest name = later at hrest ⊢
    generalize Run.resume ctx fuel rest name = later' at hrest ⊢
    cases hrest with
    | some hlater => exact .some hlater
    | none =>
      dsimp only
      split
      · exact .some hstmts
      · exact .none

theorem exec_branches (fuel : Nat) {otherwise : Activity Signal} {otherwise' : Run Signal}
    (hotherwise : otherwise.exec = otherwise'.exec) (conditional : List (Expr × Stmt)) :
    (branches ctx fuel otherwise conditional).exec =
      (Run.branches ctx fuel otherwise' conditional).exec := by
  cases conditional with
  | nil => exact hotherwise
  | cons branch rest =>
    obtain ⟨cond, body⟩ := branch
    have hbody := exec_stmt fuel body
    have hrest := exec_branches fuel hotherwise rest
    rw [branches, Run.branches, ← bind_assoc]
    refine exec_bind_congr (exec_begin _ _) fun b => ?_
    cases b with
    | false => exact hrest
    | true => exact hbody

theorem exec_cases (fuel : Nat) (selector : Value) (parts : List (Option Expr × List Stmt)) :
    (cases ctx fuel selector parts).exec = (Run.cases ctx fuel selector parts).exec := by
  cases parts with
  | nil => rfl
  | cons part rest =>
    obtain ⟨label, body⟩ := part
    have hbody := exec_inScope_congr
      (exec_jumping_congr (exec_resume fuel body) (exec_stmts fuel body) fuel)
    have hrest := exec_cases fuel selector rest
    rw [cases, Run.cases]
    refine exec_bind_congr (exec_isChosen ctx selector label) fun b => ?_
    cases b with
    | false => exact hrest
    | true => exact exec_bind_congr hbody fun signal => rfl

end

theorem exec_call_inside (known : Nat → Option CType) (fuel : Nat) (f : FunctionDef)
    (args : List Value) :
    (call known fuel f args).exec = (do
      Run.bindParams known f.params args
      Run.stmt ⟨known, Run.call known fuel⟩ fuel (.block f.body)).exec :=
  exec_bind_congr rfl fun _ => exec_stmt _ fuel _

/-- A call is its activity between entering and leaving the function. -/
theorem exec_call {known : Nat → Option CType} {fuel : Nat} {f : FunctionDef} {args : List Value}
    {pos : Option Position} {m : Machine} (hargs : args.length = f.params.length)
    (hdepth : m.depth < Run.maxDepth) :
    (Run.call known (fuel + 1) f args pos).exec m =
      match (call known fuel f args).exec (m.enterCall f.name) with
      | .ok signal t => (Run.callResult f pos signal).exec (t.leaveCall m.current)
      | .error stop t => .error stop (t.leaveCall m.current) := by
  rw [exec_call_inside, Run.call, if_neg (not_not.mpr hargs),
    Traced.exec_bind_of_ok _ (Traced.exec_get m)]
  dsimp only
  rw [if_neg (Nat.not_le.mpr hdepth)]
  generalize (do
    Run.bindParams known f.params args
    Run.stmt ⟨known, Run.call known fuel⟩ fuel (.block f.body)) = body
  have hinside : (Run.inCall f.name body).exec m =
      (body.between (some .call) (some .return) (·.enterCall f.name)
        (·.leaveCall m.current)).exec m := by
    rw [Run.inCall, Traced.exec_bind_of_ok _ (Traced.exec_get m)]
  cases h : body.exec (m.enterCall f.name) with
  | ok signal t =>
    refine Traced.exec_bind_of_ok _ (hinside.trans ?_)
    simp only [Traced.between, h]
  | error stop t =>
    refine Traced.exec_bind_of_error _ (hinside.trans ?_)
    simp only [Traced.between, h]

end Activity

end MiniC
