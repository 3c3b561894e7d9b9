import Mathlib.Data.List.Induction
import MiniC.Proofs.Jumps.Course

set_option autoImplicit false

/-! # The step in which a call stops

A part of a call that stops because of a fault does so in its last step, which is an instruction, or
an expression that decides how its statement goes on. -/

namespace MiniC

/-! ## Pieces of statements -/

/-- A piece of a statement as it is executed. -/
inductive Piece
  /-- An instruction that is executed for its own sake. -/
  | instr (i : Instr)
  /-- A condition, which may stand in the header of a loop. -/
  | condition (i : Instr)
  /-- The selector of a switch, or the step of a loop. -/
  | value (i : Instr)
  /-- The label of a case, to be compared with the selector. -/
  | case (selector : Value) (label : Expr)

namespace Piece

/-- Executes a piece of a statement. -/
def run (ctx : Context) : Piece → Run Unit
  | .instr i => do
    let _ ← Run.instr ctx i
    pure ()
  | .condition i => do
    let _ ← Run.loopTest ctx (some i)
    pure ()
  | .value i => do
    let _ ← Run.instrValue ctx i
    pure ()
  | .case selector label => do
    let _ ← Run.isChosen ctx selector (some label)
    pure ()

/-- Whether a piece is no instruction of its own, but decides how a statement goes on. -/
def isControl : Piece → Bool
  | .instr _ => false
  | _ => true

/-- Whether a step of a call is the execution of a piece. -/
def IsStep : Piece → CourseStep → Prop
  | .instr i, .instr i' => i = i'
  | .instr i, .jump j => i = .goto j.label
  | .condition i, .instr i' => i = i'
  | .condition i, .expr e => i = .expr e
  | .value i, .instr i' => i = i'
  | .value i, .expr e => i = .expr e
  | .case _ label, .expr e => label = e
  | _, _ => False

end Piece

namespace Course

variable {ctx : Context} {α β : Type}

/-! ## Last steps -/

/-- Whether a part of a call that begins in a state comes to its last step in the state `t`. -/
def LastStep (x : Course α) (m : Machine) (step : CourseStep) (t : Machine) : Prop :=
  ∃ before after, x.trace m = before ++ ⟨some step, t⟩ :: after ∧
    ∀ moment ∈ after, moment.deed = none

/-- The last step is made in some state. -/
theorem exists_lastStep {x : Course α} {m : Machine} {step : CourseStep}
    (h : (x.deeds m).getLast? = some step) : ∃ t, LastStep x m step t := by
  unfold Traced.deeds at h
  unfold LastStep
  generalize x.trace m = trace at h ⊢
  induction trace using List.reverseRecOn with
  | nil => cases h
  | append_singleton rest moment ih =>
    obtain ⟨deed, t⟩ := moment
    rw [List.filterMap_append] at h
    cases deed with
    | some deed =>
      obtain rfl : deed = step := by simpa using h
      exact ⟨t, rest, [], rfl, List.forall_mem_nil _⟩
    | none =>
      rw [show [(⟨none, t⟩ : Moment CourseStep Machine)].filterMap (·.deed) = [] from rfl,
        List.append_nil] at h
      obtain ⟨u, before, after, rfl, hafter⟩ := ih h
      refine ⟨u, before, after ++ [⟨none, t⟩], ?_, ?_⟩
      · rw [List.append_assoc, List.cons_append]
      · exact List.forall_mem_append.mpr ⟨hafter, List.forall_mem_singleton.mpr rfl⟩

/-- Whether a part of a call that stops because of a fault does so in its last step. -/
def StopsInStep (ctx : Context) (x : Course α) : Prop :=
  ∀ m cause pos u, x.exec m = .error (.fault cause pos) u →
    ∃ step t, ∃ piece : Piece, LastStep x m step t ∧ piece.IsStep step ∧
      ∃ u', (piece.run ctx).exec t = .error (.fault cause pos) u'

namespace StopsInStep

variable {x : Course α} {f : α → Course β}

theorem pure (a : α) : StopsInStep ctx (pure a : Course α) := by
  rintro m cause pos u ⟨⟩

theorem unfinished : StopsInStep ctx (throw .unfinished : Course α) := by
  rintro m cause pos u ⟨⟩

/-- A run that counts as one step stops as the piece does that it executes. -/
theorem begin (step : CourseStep) (piece : Piece) (hstep : piece.IsStep step) {x : Run α}
    (hx : ∀ m stop u, x.exec m = .error stop u → (piece.run ctx).exec m = .error stop u) :
    StopsInStep ctx (begin step x) :=
  fun m _ _ _ h => ⟨step, m, piece, ⟨[], [], rfl, List.forall_mem_nil _⟩, hstep, _, hx m _ _ h⟩

theorem bind (hx : StopsInStep ctx x) (hf : ∀ a, StopsInStep ctx (f a)) :
    StopsInStep ctx (x >>= f) := by
  intro m cause pos u h
  cases hexec : x.exec m with
  | ok a t =>
    rw [Traced.exec_bind_of_ok f hexec] at h
    obtain ⟨step, s, piece, ⟨before, after, htrace, hafter⟩, hstops⟩ := hf a t cause pos u h
    refine ⟨step, s, piece, ⟨x.trace m ++ before, after, ?_, hafter⟩, hstops⟩
    rw [Traced.trace_bind_of_ok f hexec, htrace, List.append_assoc]
  | error stop t =>
    rw [Traced.exec_bind_of_error f hexec] at h
    cases h
    obtain ⟨step, s, piece, ⟨before, after, htrace, hafter⟩, hstops⟩ := hx m cause pos _ hexec
    refine ⟨step, s, piece, ⟨before, after, ?_, hafter⟩, hstops⟩
    rw [Traced.trace_bind_of_error f hexec, htrace]

theorem inScope (hx : StopsInStep ctx x) : StopsInStep ctx (Run.inScope x) := by
  intro m cause pos u h
  simp only [Run.inScope, Traced.between] at h
  cases hexec : x.exec (m.push m.current) with
  | ok a t =>
    rw [hexec] at h
    cases h
  | error stop t =>
    rw [hexec] at h
    cases h
    obtain ⟨step, s, piece, ⟨before, after, htrace, hafter⟩, hstops⟩ := hx _ cause pos t hexec
    refine ⟨step, s, piece, ⟨⟨none, m.push m.current⟩ :: before, after ++ [⟨none, t.pop⟩], ?_, ?_⟩, hstops⟩
    · simp only [Run.inScope, Traced.between, htrace, Traced.after_of_error hexec,
        List.cons_append, List.append_assoc]
    · exact List.forall_mem_append.mpr ⟨hafter, List.forall_mem_singleton.mpr rfl⟩

variable {body next : Course Signal}

theorem onward (signal : Signal) (hnext : StopsInStep ctx next) :
    StopsInStep ctx (Run.onward signal next) := by
  cases signal with
  | normal => exact hnext
  | _ => exact .pure _

theorem turn (hbody : StopsInStep ctx body) (hnext : StopsInStep ctx next) :
    StopsInStep ctx (Run.turn body next) := by
  refine hbody.bind fun signal => ?_
  cases signal with
  | normal | «continue» => exact hnext
  | _ => exact .pure _

theorem loop {test : Course Bool} {step : Course Unit} (htest : StopsInStep ctx test)
    (hbody : StopsInStep ctx body) (hstep : StopsInStep ctx step) (fuel : Nat)
    (bodyFirst : Bool) : StopsInStep ctx (Run.loop test body step fuel bodyFirst) := by
  induction fuel generalizing bodyFirst with
  | zero => exact .unfinished
  | succ fuel ih =>
    have hfirst : StopsInStep ctx (if bodyFirst then Pure.pure true else test) := by
      cases bodyFirst with
      | false => exact htest
      | true => exact .pure true
    refine hfirst.bind fun goOn => ?_
    cases goOn with
    | false => exact .pure _
    | true => exact hbody.turn (hstep.bind fun _ => ih false)

theorem jumping {resume : String → Option (Course Signal)} {start : Course Signal}
    (hresume : ∀ name, ∀ next ∈ resume name, StopsInStep ctx next)
    (hstart : StopsInStep ctx start) (fuel : Nat) :
    StopsInStep ctx (Run.jumping resume fuel start) := by
  induction fuel generalizing start with
  | zero => exact .unfinished
  | succ fuel ih =>
    refine hstart.bind fun signal => ?_
    cases signal with
    | goto label =>
      dsimp only
      cases hnext : resume label.text with
      | none => exact .pure _
      | some next => exact ih (hresume _ next hnext)
    | _ => exact .pure _

end StopsInStep

/-! ## Pieces -/

theorem stopsInStep_instr (reach : List String) (i : Instr) :
    StopsInStep ctx (instr ctx reach i) := by
  have hrun (m : Machine) (stop : Stop) (u : Machine) (h : (Run.instr ctx i).exec m = .error stop u) :
      ((Piece.instr i).run ctx).exec m = .error stop u :=
    Traced.exec_bind_of_error _ h
  cases i with
  | goto label => exact .begin (.jump ⟨label, reach⟩) (.instr (.goto label)) rfl hrun
  | _ => exact .begin (.instr _) (.instr _) rfl hrun

theorem stopsInStep_instrs (reach : List String) (is : List Instr) :
    StopsInStep ctx (instrs ctx reach is) := by
  induction is with
  | nil => exact .pure _
  | cons i is ih => exact (stopsInStep_instr reach i).bind fun signal => .onward signal ih

theorem stopsInStep_holds (cond : Expr) : StopsInStep ctx (holds ctx cond) :=
  .begin (.expr cond) (.condition (.expr cond)) rfl fun _ _ _ h => Traced.exec_bind_of_error _ h

theorem stopsInStep_loopTest (cond : Option Instr) : StopsInStep ctx (loopTest ctx cond) := by
  cases cond with
  | none => exact .pure _
  | some i =>
    exact .begin (.instr i) (.condition i) rfl fun _ _ _ h => Traced.exec_bind_of_error _ h

theorem stopsInStep_loopStep (step : Option Instr) : StopsInStep ctx (loopStep ctx step) := by
  cases step with
  | none => exact .pure _
  | some i => exact .begin (.instr i) (.value i) rfl fun _ _ _ h => h

theorem stopsInStep_loopStart (init : Option Instr) : StopsInStep ctx (loopStart ctx init) := by
  cases init with
  | none => exact .pure _
  | some i => exact .begin (.instr i) (.instr i) rfl fun _ _ _ h => h

theorem stopsInStep_isChosen (selector : Value) (label : Option Expr) :
    StopsInStep ctx (isChosen ctx selector label) := by
  cases label with
  | none => exact .pure _
  | some label =>
    exact .begin (.expr label) (.case selector label) rfl fun _ _ _ h => Traced.exec_bind_of_error _ h

/-! ## Statements -/

mutual

theorem stopsInStep_stmt (fuel : Nat) (reach : List String) (s : Stmt) :
    StopsInStep ctx (stmt ctx fuel reach s) := by
  cases s with
  | block body =>
    rw [stmt]
    exact ((stopsInStep_stmts fuel _ body).jumping (stopsInStep_resume fuel _ body) fuel).inScope
  | line is =>
    rw [stmt]
    exact stopsInStep_instrs reach is
  | label name =>
    rintro m cause pos u ⟨⟩
  | branches conditional otherwise =>
    rw [stmt]
    refine stopsInStep_branches fuel reach ?_ conditional
    cases otherwise with
    | none => exact .pure _
    | some body => exact stopsInStep_stmt fuel reach body
  | «while» cond body =>
    rw [stmt]
    exact ((stopsInStep_holds cond).loop (stopsInStep_stmt fuel reach body) (.pure _) fuel _).inScope
  | doWhile cond body =>
    rw [stmt]
    exact ((stopsInStep_holds cond).loop (stopsInStep_stmt fuel reach body) (.pure _) fuel _).inScope
  | «for» init cond step body =>
    rw [stmt]
    refine ((stopsInStep_loopStart init).bind fun _ => StopsInStep.inScope ?_).inScope
    exact (stopsInStep_loopTest cond).loop (stopsInStep_stmt fuel reach body)
      (stopsInStep_loopStep step) fuel _
  | «switch» selector parts =>
    have hselector : StopsInStep ctx (begin (.expr selector) (Run.eval ctx selector)) :=
      .begin (.expr selector) (.value (.expr selector)) rfl fun _ _ _ h => Traced.exec_bind_of_error _ h
    rw [stmt]
    exact hselector.bind fun v => stopsInStep_cases fuel reach v parts

theorem stopsInStep_stmts (fuel : Nat) (reach : List String) (body : List Stmt) :
    StopsInStep ctx (stmts ctx fuel reach body) := by
  cases body with
  | nil => exact .pure _
  | cons s rest =>
    have hrest := stopsInStep_stmts fuel reach rest
    rw [stmts]
    exact (stopsInStep_stmt fuel reach s).bind fun signal => .onward signal hrest

theorem stopsInStep_resume (fuel : Nat) (reach : List String) (body : List Stmt) (name : String) :
    ∀ next ∈ resume ctx fuel reach body name, StopsInStep ctx next := by
  cases body with
  | nil => exact fun next hnext => by cases hnext
  | cons s rest =>
    have hs : StopsInStep ctx (stmt ctx fuel reach s) := stopsInStep_stmt fuel reach s
    have hrest : StopsInStep ctx (stmts ctx fuel reach rest) := stopsInStep_stmts fuel reach rest
    have hlater := stopsInStep_resume fuel reach rest name
    intro next hnext
    rw [resume] at hnext
    cases hresume : resume ctx fuel reach rest name with
    | some later =>
      rw [hresume] at hnext
      cases hnext
      exact hlater _ hresume
    | none =>
      rw [hresume] at hnext
      dsimp only at hnext
      split at hnext
      · cases hnext
        exact hs.bind fun signal => .onward signal hrest
      · cases hnext

theorem stopsInStep_branches (fuel : Nat) (reach : List String) {otherwise : Course Signal}
    (hotherwise : StopsInStep ctx otherwise) (conditional : List (Expr × Stmt)) :
    StopsInStep ctx (branches ctx fuel reach otherwise conditional) := by
  cases conditional with
  | nil => exact hotherwise
  | cons branch rest =>
    obtain ⟨cond, body⟩ := branch
    rw [branches]
    refine (stopsInStep_holds cond).bind fun b => ?_
    split
    · exact stopsInStep_stmt fuel reach body
    · exact stopsInStep_branches fuel reach hotherwise rest

theorem stopsInStep_cases (fuel : Nat) (reach : List String) (selector : Value)
    (parts : List (Option Expr × List Stmt)) :
    StopsInStep ctx (cases ctx fuel reach selector parts) := by
  cases parts with
  | nil => exact .pure _
  | cons part rest =>
    obtain ⟨label, body⟩ := part
    rw [cases]
    refine (stopsInStep_isChosen selector label).bind fun b => ?_
    split
    · refine StopsInStep.bind (StopsInStep.inScope ?_) fun signal => .pure _
      exact (stopsInStep_stmts fuel _ body).jumping (stopsInStep_resume fuel _ body) fuel
    · exact stopsInStep_cases fuel reach selector rest

end

end Course

end MiniC
