import MiniC.Proofs.Jumps.Labels
import MiniC.Proofs.Returns.Activity

set_option autoImplicit false

/-! # The course of a call

Where the control of a call goes: the instructions that it executes, the expressions that its
statements depend on, the jumps that it makes and the labels that it comes to. Statements are
executed here once more with such a trace, and with the names of the labels that are in reach of
their jumps. They do the same as in a run. -/

namespace MiniC

/-- What a call of a function does at a moment. -/
inductive CourseStep
  /-- It begins to execute an instruction that is no jump, or one in the header of a loop. -/
  | instr (i : Instr)
  /-- It begins to evaluate an expression of a statement that belongs to no instruction. -/
  | expr (e : Expr)
  /-- It makes a jump. -/
  | jump (j : Jump)
  /-- It comes to a label, from the statement before it or by a jump. -/
  | label (name : Leaf)

/-- A part of a call. -/
abbrev Course := Traced Stop Machine CourseStep

namespace Course

variable {α : Type}

/-- A computation of which nothing counts as a step. -/
def silent (x : Run α) : Course α where
  exec := x.exec
  trace _ := []

/-- A computation that is a step. -/
def begin (step : CourseStep) (x : Run α) : Course α where
  exec := x.exec
  trace m := [⟨some step, m⟩]

/-! ## Instructions and expressions -/

/-- The step that an instruction is, if labels with the names `reach` are in reach. -/
def step (reach : List String) : Instr → CourseStep
  | .goto label => .jump ⟨label, reach⟩
  | i => .instr i

/-- Executes an instruction. -/
def instr (ctx : Context) (reach : List String) (i : Instr) : Course Signal :=
  begin (step reach i) (Run.instr ctx i)

/-- Executes instructions one after another. -/
def instrs (ctx : Context) (reach : List String) : List Instr → Course Signal
  | [] => pure .normal
  | i :: rest => do Run.onward (← instr ctx reach i) (instrs ctx reach rest)

/-- Whether an expression holds. -/
def holds (ctx : Context) (e : Expr) : Course Bool :=
  begin (.expr e) do Run.truth (← Run.eval ctx e)

/-- Whether the condition of a loop holds; a condition that is left out does. -/
def loopTest (ctx : Context) : Option Instr → Course Bool
  | none => pure true
  | some i => begin (.instr i) (Run.loopTest ctx (some i))

/-- Executes the step of a loop, which may be left out. -/
def loopStep (ctx : Context) : Option Instr → Course Unit
  | none => pure ()
  | some i => begin (.instr i) (Run.loopStep ctx (some i))

/-- Executes the initial instruction of a loop, which may be left out. No jump comes out of it. -/
def loopStart (ctx : Context) : Option Instr → Course Unit
  | none => pure ()
  | some i => begin (.instr i) (Run.loopStart ctx (some i))

/-- Whether a case with the given label is chosen; the default case has no label. -/
def isChosen (ctx : Context) (selector : Value) : Option Expr → Course Bool
  | none => pure true
  | some label => begin (.expr label) (Run.isChosen ctx selector (some label))

/-! ## Statements -/

mutual

/-- Executes a statement. -/
def stmt (ctx : Context) (fuel : Nat) (reach : List String) : Stmt → Course Signal
  | .block body =>
    Run.inScope (Run.jumping (resume ctx fuel (Stmt.targets body ++ reach) body) fuel
      (stmts ctx fuel (Stmt.targets body ++ reach) body))
  | .line is => instrs ctx reach is
  | .label name => do
    Traced.note (.label name)
    pure .normal
  | .branches conditional otherwise =>
    branches ctx fuel reach (otherBranch ctx fuel reach otherwise) conditional
  | .while cond body =>
    Run.inScope (Run.loop (holds ctx cond) (stmt ctx fuel reach body) (pure ()) fuel false)
  | .doWhile cond body =>
    Run.inScope (Run.loop (holds ctx cond) (stmt ctx fuel reach body) (pure ()) fuel true)
  | .for init cond step body =>
    Run.inScope do
      loopStart ctx init
      Run.inScope
        (Run.loop (loopTest ctx cond) (stmt ctx fuel reach body) (loopStep ctx step) fuel false)
  | .switch selector parts => do
    cases ctx fuel reach (← begin (.expr selector) (Run.eval ctx selector)) parts

/-- Executes statements one after another. -/
def stmts (ctx : Context) (fuel : Nat) (reach : List String) : List Stmt → Course Signal
  | [] => pure .normal
  | s :: rest => do Run.onward (← stmt ctx fuel reach s) (stmts ctx fuel reach rest)

/-- What is executed from the last label with the given name on among statements. -/
def resume (ctx : Context) (fuel : Nat) (reach : List String) :
    List Stmt → String → Option (Course Signal)
  | [], _ => none
  | s :: rest, name =>
    match resume ctx fuel reach rest name with
    | some next => some next
    | none =>
      if Run.isLabel name s then
        some do Run.onward (← stmt ctx fuel reach s) (stmts ctx fuel reach rest)
      else none

/-- Executes the branch of the first condition that holds, or `otherwise`. -/
def branches (ctx : Context) (fuel : Nat) (reach : List String) (otherwise : Course Signal) :
    List (Expr × Stmt) → Course Signal
  | [] => otherwise
  | (cond, body) :: rest => do
    if ← holds ctx cond then stmt ctx fuel reach body
    else branches ctx fuel reach otherwise rest

/-- Executes the branch for no condition, if there is one. -/
def otherBranch (ctx : Context) (fuel : Nat) (reach : List String) :
    Option Stmt → Course Signal
  | none => pure .normal
  | some body => stmt ctx fuel reach body

/-- Executes the first case that is chosen. -/
def cases (ctx : Context) (fuel : Nat) (reach : List String) (selector : Value) :
    List (Option Expr × List Stmt) → Course Signal
  | [] => pure .normal
  | (label, body) :: rest => do
    if ← isChosen ctx selector label then
      return Run.afterCase (← Run.inScope (Run.jumping
        (resume ctx fuel (Stmt.targets body ++ reach) body) fuel
        (stmts ctx fuel (Stmt.targets body ++ reach) body)))
    else cases ctx fuel reach selector rest

end

/-- What a call of a function does between entering and leaving it. -/
def call (known : Nat → Option CType) (fuel : Nat) (f : FunctionDef) (args : List Value) :
    Course Signal := do
  silent (Run.bindParams known f.params args)
  stmt ⟨known, Run.call known fuel⟩ fuel [] (.block f.body)

/-! ## The same as in a run -/

open Activity (exec_bind_congr exec_inScope_congr exec_onward_congr exec_loop_congr
  exec_jumping_congr)

theorem exec_begin (step : CourseStep) (x : Run α) : (begin step x).exec = x.exec := rfl

variable (ctx : Context) (fuel : Nat)

theorem exec_instrs (reach : List String) (is : List Instr) :
    (instrs ctx reach is).exec = (Run.instrs ctx is).exec := by
  induction is with
  | nil => rfl
  | cons i is ih => exact exec_bind_congr rfl fun signal => exec_onward_congr signal ih

theorem exec_loopTest (cond : Option Instr) :
    (loopTest ctx cond).exec = (Run.loopTest ctx cond).exec := by
  cases cond <;> rfl

theorem exec_loopStep (step : Option Instr) :
    (loopStep ctx step).exec = (Run.loopStep ctx step).exec := by
  cases step <;> rfl

theorem exec_loopStart (init : Option Instr) :
    (loopStart ctx init).exec = (Run.loopStart ctx init).exec := by
  cases init <;> rfl

theorem exec_isChosen (selector : Value) (label : Option Expr) :
    (isChosen ctx selector label).exec = (Run.isChosen ctx selector label).exec := by
  cases label <;> rfl

mutual

theorem exec_stmt (reach : List String) (s : Stmt) :
    (stmt ctx fuel reach s).exec = (Run.stmt ctx fuel s).exec := by
  cases s with
  | block body =>
    rw [stmt, Run.stmt]
    exact exec_inScope_congr
      (exec_jumping_congr (exec_resume _ body) (exec_stmts _ body) fuel)
  | line is =>
    rw [stmt, Run.stmt]
    exact exec_instrs ctx reach is
  | label name => rfl
  | branches conditional otherwise =>
    rw [stmt, Run.stmt]
    refine exec_branches reach ?_ conditional
    cases otherwise with
    | none => rfl
    | some body => exact exec_stmt reach body
  | «while» cond body =>
    rw [stmt, Run.stmt]
    exact exec_inScope_congr (exec_loop_congr (exec_begin _ _) (exec_stmt reach body) rfl fuel _)
  | doWhile cond body =>
    rw [stmt, Run.stmt]
    exact exec_inScope_congr (exec_loop_congr (exec_begin _ _) (exec_stmt reach body) rfl fuel _)
  | «for» init cond step body =>
    rw [stmt, Run.stmt]
    refine exec_inScope_congr (exec_bind_congr (exec_loopStart ctx init) fun _ => ?_)
    exact exec_inScope_congr (exec_loop_congr (exec_loopTest ctx cond) (exec_stmt reach body)
      (exec_loopStep ctx step) fuel _)
  | «switch» selector parts =>
    rw [stmt, Run.stmt]
    exact exec_bind_congr rfl fun v => exec_cases reach v parts

theorem exec_stmts (reach : List String) (body : List Stmt) :
    (stmts ctx fuel reach body).exec = (Run.stmts ctx fuel body).exec := by
  cases body with
  | nil => rfl
  | cons s rest =>
    rw [stmts, Run.stmts]
    exact exec_bind_congr (exec_stmt reach s) fun signal =>
      exec_onward_congr signal (exec_stmts reach rest)

theorem exec_resume (reach : List String) (body : List Stmt) (name : String) :
    Option.Rel (fun x x' => x.exec = x'.exec) (resume ctx fuel reach body name)
      (Run.resume ctx fuel body name) := by
  cases body with
  | nil => exact .none
  | cons s rest =>
    have hrest := exec_resume reach rest name
    have hstmts := exec_stmts reach rest
    rw [resume, Run.resume]
    generalize resume ctx fuel reach rest name = later at hrest ⊢
    generalize Run.resume ctx fuel rest name = later' at hrest ⊢
    cases hrest with
    | some hlater => exact .some hlater
    | none =>
      dsimp only
      split
      · cases s with
        | label leaf => exact .some hstmts
        | _ => contradiction
      · exact .none

theorem exec_branches (reach : List String) {otherwise : Course Signal} {otherwise' : Run Signal}
    (hotherwise : otherwise.exec = otherwise'.exec) (conditional : List (Expr × Stmt)) :
    (branches ctx fuel reach otherwise conditional).exec =
      (Run.branches ctx fuel otherwise' conditional).exec := by
  cases conditional with
  | nil => exact hotherwise
  | cons branch rest =>
    obtain ⟨cond, body⟩ := branch
    have hbody := exec_stmt reach body
    have hrest := exec_branches reach hotherwise rest
    rw [branches, Run.branches, ← bind_assoc]
    refine exec_bind_congr rfl fun b => ?_
    cases b with
    | false => exact hrest
    | true => exact hbody

theorem exec_cases (reach : List String) (selector : Value)
    (parts : List (Option Expr × List Stmt)) :
    (cases ctx fuel reach selector parts).exec = (Run.cases ctx fuel selector parts).exec := by
  cases parts with
  | nil => rfl
  | cons part rest =>
    obtain ⟨label, body⟩ := part
    have hbody := exec_inScope_congr (exec_jumping_congr
      (exec_resume (Stmt.targets body ++ reach) body)
      (exec_stmts (Stmt.targets body ++ reach) body) fuel)
    have hrest := exec_cases reach selector rest
    rw [cases, Run.cases]
    refine exec_bind_congr (exec_isChosen ctx selector label) fun b => ?_
    cases b with
    | false => exact hrest
    | true => exact exec_bind_congr hbody fun signal => rfl

end

theorem exec_call (known : Nat → Option CType) (f : FunctionDef) (args : List Value) :
    (call known fuel f args).exec = (Activity.call known fuel f args).exec :=
  exec_bind_congr rfl fun _ => (exec_stmt _ fuel [] _).trans (Activity.exec_stmt _ fuel _).symm

end Course

end MiniC
