import MiniC.Proofs.Linkage
import MiniC.Proofs.Returns.Activity

set_option autoImplicit false

/-! # A return is final

Once a call has executed a return, it does nothing more: every statement around the return hands it
on, and the call has the value that was returned, as a value of the return type. The only place
from which a return does not come out is the first part of the header of a `for` loop, since the
loop drops how that instruction ends. -/

namespace MiniC

/-! ## Executed returns -/

/-- The value of an executed return. -/
def CallStep.answer? : CallStep → Option (Option Value)
  | .answer v => some v
  | _ => none

theorem CallStep.split_at_answer {steps : List CallStep} {v : Option Value} {answers}
    (h : steps.map CallStep.answer? = answers) (hv : some v ∈ answers) :
    ∃ before after, steps = before ++ .answer v :: after := by
  rw [← h] at hv
  obtain ⟨step, hstep, hv⟩ := List.mem_map.mp hv
  cases step with
  | answer w =>
    cases hv
    exact List.append_of_mem hstep
  | instr _ | expr _ => cases hv

/-! ## Loops that begin plainly -/

mutual

/-- Whether no loop in a statement has a return as its initial instruction. -/
def Stmt.BeginsPlainly : Stmt → Prop
  | .block body => Stmt.AllBeginPlainly body
  | .line _ | .label _ => True
  | .branches conditional otherwise =>
    Stmt.BranchesBeginPlainly conditional ∧ Stmt.OtherwiseBeginsPlainly otherwise
  | .while _ body | .doWhile _ body => body.BeginsPlainly
  | .for init _ _ body => (∀ value, init ≠ some (.return value)) ∧ body.BeginsPlainly
  | .switch _ cases => Stmt.CasesBeginPlainly cases

/-- Whether this is so for all statements of a block. -/
def Stmt.AllBeginPlainly : List Stmt → Prop
  | [] => True
  | s :: rest => s.BeginsPlainly ∧ Stmt.AllBeginPlainly rest

/-- Whether this is so for the branches with a condition. -/
def Stmt.BranchesBeginPlainly : List (Expr × Stmt) → Prop
  | [] => True
  | (_, body) :: rest => body.BeginsPlainly ∧ Stmt.BranchesBeginPlainly rest

/-- Whether this is so for the branch without a condition. -/
def Stmt.OtherwiseBeginsPlainly : Option Stmt → Prop
  | none => True
  | some body => body.BeginsPlainly

/-- Whether this is so for the cases of a switch. -/
def Stmt.CasesBeginPlainly : List (Option Expr × List Stmt) → Prop
  | [] => True
  | (_, body) :: rest => Stmt.AllBeginPlainly body ∧ Stmt.CasesBeginPlainly rest

end

/-- An instruction ends as a return only if it is one. -/
theorem Run.eq_return_of_instr {ctx : Context} {i : Instr} {m t : Machine} {v : Option Value}
    (h : (Run.instr ctx i).exec m = .ok (.return v) t) : ∃ value, i = .return value := by
  have hends := endsWith_of_instr h
  cases i with
  | «return» value => exact ⟨value, rfl⟩
  | _ => cases hends

namespace Activity

variable {α β : Type}

/-! ## Steps of combined parts -/

theorem steps_begin (step : CallStep) (x : Run α) (m : Machine) : (begin step x).steps m = [step] :=
  rfl

section Bind

variable {x : Activity α} {m t : Machine}

theorem steps_bind_of_ok {a : α} (f : α → Activity β) (h : x.exec m = .ok a t) :
    (x >>= f).steps m = x.steps m ++ (f a).steps t :=
  Traced.deeds_bind_of_ok f h

theorem steps_bind_of_error {stop : Stop} (f : α → Activity β) (h : x.exec m = .error stop t) :
    (x >>= f).steps m = x.steps m :=
  Traced.deeds_bind_of_error f h

end Bind

theorem steps_inScope (x : Activity α) (m : Machine) :
    steps (Run.inScope x) m = x.steps (m.push m.current) :=
  Traced.deeds_between _ _ x m

/-! ## Parts without a return -/

/-- Whether no return is executed in a part of a call. -/
def Mute (x : Activity α) : Prop :=
  ∀ m v, CallStep.answer v ∉ x.steps m

theorem mute_pure (a : α) : Mute (pure a : Activity α) :=
  fun m v h => by cases h

theorem mute_begin {step : CallStep} (hstep : ∀ v, step ≠ .answer v) (x : Run α) :
    Mute (begin step x) := by
  intro m v h
  rw [steps_begin, List.mem_singleton] at h
  exact hstep v h.symm

theorem Mute.bind {x : Activity α} {f : α → Activity β} (hx : Mute x) (hf : ∀ a, Mute (f a)) :
    Mute (x >>= f) := by
  intro m v hv
  cases h : x.exec m with
  | ok a t =>
    rw [steps_bind_of_ok f h, List.mem_append] at hv
    exact hv.elim (hx m v) (hf a t v)
  | error stop t =>
    rw [steps_bind_of_error f h] at hv
    exact hx m v hv

/-! ## Final returns -/

/-- Whether an executed return is the last step of a part of a call, and is how it ends. -/
structure Final (x : Activity Signal) : Prop where
  last : ∀ m, (x.steps m).Pairwise fun step _ => ∀ v, step ≠ .answer v
  handed : ∀ m v, CallStep.answer v ∈ x.steps m → ∃ t, x.exec m = .ok (.return v) t

theorem Mute.last {x : Activity α} (hx : Mute x) (m : Machine) :
    (x.steps m).Pairwise fun step _ => ∀ v, step ≠ .answer v :=
  List.pairwise_of_forall_mem_list fun _ hstep _ _ v h => hx m v (h ▸ hstep)

theorem Mute.final {x : Activity Signal} (hx : Mute x) : Final x where
  last := hx.last
  handed m v h := absurd h (hx m v)

theorem final_pure (signal : Signal) : Final (pure signal) :=
  (mute_pure signal).final

/-- What comes after a part without a return decides. -/
theorem Mute.bind_final {x : Activity α} {f : α → Activity Signal} (hx : Mute x)
    (hf : ∀ a, Final (f a)) : Final (x >>= f) where
  last m := by
    cases h : x.exec m with
    | ok a t =>
      rw [steps_bind_of_ok f h, List.pairwise_append]
      exact ⟨hx.last m, (hf a).last t, fun step hstep _ _ v hv => hx m v (hv ▸ hstep)⟩
    | error stop t =>
      rw [steps_bind_of_error f h]
      exact hx.last m
  handed m v hv := by
    cases h : x.exec m with
    | ok a t =>
      rw [steps_bind_of_ok f h, List.mem_append] at hv
      rw [Traced.exec_bind_of_ok f h]
      exact (hf a).handed t v (hv.resolve_left (hx m v))
    | error stop t =>
      rw [steps_bind_of_error f h] at hv
      exact absurd hv (hx m v)

/-- What comes after a return must hand it on. -/
theorem Final.bind {x : Activity Signal} {f : Signal → Activity Signal} (hx : Final x)
    (hf : ∀ signal, Final (f signal)) (hreturn : ∀ v, f (.return v) = pure (.return v)) :
    Final (x >>= f) where
  last m := by
    cases h : x.exec m with
    | ok signal t =>
      rw [steps_bind_of_ok f h, List.pairwise_append]
      refine ⟨hx.last m, (hf signal).last t, fun step hstep next hnext v hv => ?_⟩
      -- A return in the first part is handed on at once, so no step comes after it.
      obtain ⟨u, hu⟩ := hx.handed m v (hv ▸ hstep)
      rw [h] at hu
      cases hu
      rw [hreturn] at hnext
      cases hnext
    | error stop t =>
      rw [steps_bind_of_error f h]
      exact hx.last m
  handed m v hv := by
    cases h : x.exec m with
    | ok signal t =>
      rw [steps_bind_of_ok f h, List.mem_append] at hv
      rw [Traced.exec_bind_of_ok f h]
      rcases hv with hv | hv
      · obtain ⟨u, hu⟩ := hx.handed m v hv
        rw [h] at hu
        cases hu
        exact ⟨t, by rw [hreturn, Traced.exec_pure]⟩
      · exact (hf signal).handed t v hv
    | error stop t =>
      rw [steps_bind_of_error f h] at hv
      obtain ⟨u, hu⟩ := hx.handed m v hv
      rw [h] at hu
      cases hu

theorem Final.inScope {x : Activity Signal} (hx : Final x) : Final (Run.inScope x) where
  last m := by
    rw [steps_inScope]
    exact hx.last _
  handed m v hv := by
    rw [steps_inScope] at hv
    obtain ⟨t, ht⟩ := hx.handed _ v hv
    exact ⟨t.pop, by simp only [Run.inScope, Traced.between, ht]⟩

theorem Final.onward (signal : Signal) {next : Activity Signal} (hnext : Final next) :
    Final (Run.onward signal next) := by
  cases signal with
  | normal => exact hnext
  | _ => exact final_pure _

theorem Final.turn {body next : Activity Signal} (hbody : Final body) (hnext : Final next) :
    Final (Run.turn body next) := by
  refine hbody.bind (fun signal => ?_) fun v => rfl
  cases signal with
  | normal | «continue» => exact hnext
  | _ => exact final_pure _

theorem Final.loop {test : Activity Bool} {body : Activity Signal} {step : Activity Unit}
    (htest : Mute test) (hbody : Final body) (hstep : Mute step) (fuel : Nat) (bodyFirst : Bool) :
    Final (Run.loop test body step fuel bodyFirst) := by
  induction fuel generalizing bodyFirst with
  | zero => exact ⟨fun _ => .nil, fun _ _ h => by cases h⟩
  | succ fuel ih =>
    have hfirst : Mute (if bodyFirst then pure true else test) := by
      cases bodyFirst with
      | false => exact htest
      | true => exact mute_pure true
    refine hfirst.bind_final fun goOn => ?_
    cases goOn with
    | false => exact final_pure _
    | true => exact hbody.turn (hstep.bind_final fun _ => ih false)

theorem Final.jumping {resume : String → Option (Activity Signal)} {start : Activity Signal}
    (hresume : ∀ name, ∀ next ∈ resume name, Final next) (hstart : Final start) (fuel : Nat) :
    Final (Run.jumping resume fuel start) := by
  induction fuel generalizing start with
  | zero => exact ⟨fun _ => .nil, fun _ _ h => by cases h⟩
  | succ fuel ih =>
    refine hstart.bind (fun signal => ?_) fun v => rfl
    cases signal with
    | goto label =>
      dsimp only
      split
      · exact final_pure _
      · rename_i next hnext
        exact ih (hresume _ next hnext)
    | _ => exact final_pure _

/-! ## Instructions -/

variable {ctx : Context}

theorem steps_instr_of_return {i : Instr} {m t : Machine} {v : Option Value}
    (h : (Run.instr ctx i).exec m = .ok (.return v) t) :
    (instr ctx i).steps m = [.instr i, .answer v] := by
  rw [instr, steps_bind_of_ok _ ((congrFun (exec_begin _ _) m).trans h), steps_begin]
  rfl

theorem steps_instr_of_not_return {i : Instr} {m : Machine}
    (h : ∀ v t, (Run.instr ctx i).exec m ≠ .ok (.return v) t) :
    (instr ctx i).steps m = [.instr i] := by
  cases hexec : (Run.instr ctx i).exec m with
  | error stop t =>
    rw [instr, steps_bind_of_error _ ((congrFun (exec_begin _ _) m).trans hexec), steps_begin]
  | ok signal t =>
    rw [instr, steps_bind_of_ok _ ((congrFun (exec_begin _ _) m).trans hexec), steps_begin]
    cases signal with
    | «return» v => exact absurd hexec (h v t)
    | _ => rfl

theorem final_instr (i : Instr) : Final (instr ctx i) where
  last m := by
    by_cases h : ∃ v t, (Run.instr ctx i).exec m = .ok (.return v) t
    · obtain ⟨v, t, h⟩ := h
      rw [steps_instr_of_return h]
      simp
    · rw [steps_instr_of_not_return fun v t hexec => h ⟨v, t, hexec⟩]
      exact List.pairwise_singleton _ _
  handed m v hv := by
    by_cases h : ∃ w t, (Run.instr ctx i).exec m = .ok (.return w) t
    · obtain ⟨w, t, h⟩ := h
      rw [steps_instr_of_return h] at hv
      obtain rfl : v = w := by simpa using hv
      exact ⟨t, exec_instr ctx i ▸ h⟩
    · rw [steps_instr_of_not_return fun w t hexec => h ⟨w, t, hexec⟩] at hv
      simp at hv

theorem mute_instr {i : Instr} (hi : ∀ value, i ≠ .return value) : Mute (instr ctx i) := by
  intro m v hv
  rw [steps_instr_of_not_return] at hv
  · simp at hv
  · intro w t h
    obtain ⟨value, rfl⟩ := Run.eq_return_of_instr h
    exact hi value rfl

theorem final_instrs (is : List Instr) : Final (instrs ctx is) := by
  induction is with
  | nil => exact final_pure _
  | cons i is ih => exact (final_instr i).bind (fun signal => .onward signal ih) fun v => rfl

/-! ## Parts of statements -/

theorem mute_holds (cond : Expr) : Mute (holds ctx cond) :=
  mute_begin (by simp) _

theorem mute_loopTest (cond : Option Instr) : Mute (loopTest ctx cond) := by
  cases cond with
  | none => exact mute_pure _
  | some i => exact mute_begin (by simp) _

theorem mute_loopStep (step : Option Instr) : Mute (loopStep ctx step) := by
  cases step with
  | none => exact mute_pure _
  | some i => exact mute_begin (by simp) _

theorem mute_loopStart {init : Option Instr} (hinit : ∀ value, init ≠ some (.return value)) :
    Mute (loopStart ctx init) := by
  cases init with
  | none => exact mute_pure _
  | some i =>
    have hi : Mute (instr ctx i) := mute_instr fun value h => hinit value (congrArg some h)
    exact hi.bind fun _ => mute_pure _

theorem mute_isChosen (selector : Value) (label : Option Expr) :
    Mute (isChosen ctx selector label) := by
  cases label with
  | none => exact mute_pure _
  | some label => exact mute_begin (by simp) _

/-! ## Statements -/

mutual

/-- A statement in which all loops begin plainly ends with the return that it executes. -/
theorem final_stmt (fuel : Nat) (s : Stmt) (hs : s.BeginsPlainly) : Final (stmt ctx fuel s) := by
  cases s with
  | block body =>
    rw [Stmt.BeginsPlainly] at hs
    rw [stmt]
    exact ((final_stmts fuel body hs).jumping (final_resume fuel body hs) fuel).inScope
  | line is =>
    rw [stmt]
    exact final_instrs is
  | label name => exact final_pure _
  | branches conditional otherwise =>
    rw [Stmt.BeginsPlainly] at hs
    rw [stmt]
    refine final_branches fuel ?_ conditional hs.1
    cases otherwise with
    | none => exact final_pure _
    | some body => exact final_stmt fuel body hs.2
  | «while» cond body =>
    rw [Stmt.BeginsPlainly] at hs
    rw [stmt]
    exact (Final.loop (mute_holds cond) (final_stmt fuel body hs) (mute_pure _) fuel _).inScope
  | doWhile cond body =>
    rw [Stmt.BeginsPlainly] at hs
    rw [stmt]
    exact (Final.loop (mute_holds cond) (final_stmt fuel body hs) (mute_pure _) fuel _).inScope
  | «for» init cond step body =>
    rw [Stmt.BeginsPlainly] at hs
    rw [stmt]
    -- That a loop begins plainly says that its first part is no return.
    refine Final.inScope ((mute_loopStart hs.1).bind_final fun _ => Final.inScope ?_)
    exact .loop (mute_loopTest cond) (final_stmt fuel body hs.2) (mute_loopStep step) fuel _
  | «switch» selector parts =>
    rw [Stmt.BeginsPlainly] at hs
    rw [stmt]
    refine Mute.bind_final (mute_begin (by simp) _) fun v => ?_
    exact final_cases fuel v parts hs

theorem final_stmts (fuel : Nat) (body : List Stmt) (hs : Stmt.AllBeginPlainly body) :
    Final (stmts ctx fuel body) := by
  cases body with
  | nil => exact final_pure _
  | cons s rest =>
    rw [Stmt.AllBeginPlainly] at hs
    have hrest := final_stmts fuel rest hs.2
    rw [stmts]
    exact (final_stmt fuel s hs.1).bind (fun signal => .onward signal hrest) fun v => rfl

theorem final_resume (fuel : Nat) (body : List Stmt) (hs : Stmt.AllBeginPlainly body) :
    ∀ name, ∀ next ∈ resume ctx fuel body name, Final next := by
  cases body with
  | nil => exact fun name next hnext => by cases hnext
  | cons s rest =>
    rw [Stmt.AllBeginPlainly] at hs
    intro name next hnext
    rw [resume] at hnext
    cases hrest : resume ctx fuel rest name with
    | some later =>
      rw [hrest] at hnext
      cases hnext
      exact final_resume fuel rest hs.2 name _ hrest
    | none =>
      rw [hrest] at hnext
      dsimp only at hnext
      split at hnext
      · cases hnext
        exact final_stmts fuel rest hs.2
      · cases hnext

theorem final_branches (fuel : Nat) {otherwise : Activity Signal} (hotherwise : Final otherwise)
    (conditional : List (Expr × Stmt)) (hs : Stmt.BranchesBeginPlainly conditional) :
    Final (branches ctx fuel otherwise conditional) := by
  cases conditional with
  | nil => exact hotherwise
  | cons branch rest =>
    obtain ⟨cond, body⟩ := branch
    rw [Stmt.BranchesBeginPlainly] at hs
    rw [branches]
    refine (mute_holds cond).bind_final fun b => ?_
    split
    · exact final_stmt fuel body hs.1
    · exact final_branches fuel hotherwise rest hs.2

theorem final_cases (fuel : Nat) (selector : Value) (parts : List (Option Expr × List Stmt))
    (hs : Stmt.CasesBeginPlainly parts) : Final (cases ctx fuel selector parts) := by
  cases parts with
  | nil => exact final_pure _
  | cons part rest =>
    obtain ⟨label, body⟩ := part
    rw [Stmt.CasesBeginPlainly] at hs
    have hbody : Final (Run.inScope
        (Run.jumping (resume ctx fuel body) fuel (stmts ctx fuel body))) :=
      ((final_stmts fuel body hs.1).jumping (final_resume fuel body hs.1) fuel).inScope
    rw [cases]
    refine (mute_isChosen selector label).bind_final fun b => ?_
    split
    · exact hbody.bind (fun signal => final_pure _) fun v => rfl
    · exact final_cases fuel selector rest hs.2

end

theorem final_call {f : FunctionDef} (hf : Stmt.AllBeginPlainly f.body)
    (known : Nat → Option CType) (fuel : Nat) (args : List Value) :
    Final (call known fuel f args) := by
  have hparams : Mute (silent (Run.bindParams known f.params args)) := fun m v h => by cases h
  exact hparams.bind_final fun _ => final_stmt fuel (.block f.body) hf

end Activity

namespace Run

/-- If all loops of a function begin plainly, then nothing comes after a return in a call of it, the
statements around the return end with it, and the call has the returned value as a value of the
return type, or none. -/
theorem return_final {known : Nat → Option CType} {fuel : Nat} {f : FunctionDef}
    {args : List Value} (pos : Option Position) {m : Machine} {before after : List CallStep}
    {v : Option Value} (hargs : args.length = f.params.length) (hdepth : m.depth < maxDepth)
    (hf : Stmt.AllBeginPlainly f.body)
    (hsteps : (Activity.call known fuel f args).steps (m.enterCall f.name) =
      before ++ .answer v :: after) :
    after = [] ∧
    (∀ (ctx : Context) (n : Nat) (s : Stmt), s.BeginsPlainly → ∀ m w,
      .answer w ∈ (Activity.stmt ctx n s).steps m →
        ∃ t, (stmt ctx n s).exec m = .ok (.return w) t) ∧
    ∃ t, (Activity.call known fuel f args).exec (m.enterCall f.name) = .ok (.return v) t ∧
      (v = none ∨ f.returnType.isVoid → (call known (fuel + 1) f args pos).exec m =
        .ok none (t.leaveCall m.current)) ∧
      ∀ w, v = some w → ¬f.returnType.isVoid → (call known (fuel + 1) f args pos).exec m =
        (do return some (← convert f.returnType w pos) : Run (Option Value)).exec
          (t.leaveCall m.current) := by
  have hfinal := Activity.final_call hf known fuel args
  refine ⟨?_, fun ctx n s hs m w hw => ?_, ?_⟩
  · have hlast := hfinal.last (m.enterCall f.name)
    rw [hsteps, List.pairwise_append, List.pairwise_cons] at hlast
    refine List.eq_nil_iff_forall_not_mem.mpr fun step hstep => ?_
    exact hlast.2.1.1 step hstep v rfl
  · rw [← Activity.exec_stmt]
    exact (Activity.final_stmt n s hs).handed m w hw
  · obtain ⟨t, ht⟩ := hfinal.handed (m.enterCall f.name) v (hsteps ▸ by simp)
    have hcall : (call known (fuel + 1) f args pos).exec m =
        (callResult f pos (.return v)).exec (t.leaveCall m.current) := by
      rw [Activity.exec_call hargs hdepth, ht]
    refine ⟨t, ht, fun hnone => ?_, fun w hw hvoid => ?_⟩
    · rw [hcall]
      cases v with
      | none => rfl
      | some w =>
        rw [callResult, if_pos (hnone.resolve_left (Option.some_ne_none w)), Traced.exec_pure]
    · rw [hcall, hw, callResult, if_neg hvoid]

end Run

namespace Program

/-! ## A return out of a loop -/

/-- The function `char f(){while(1){if (1) return 300;} 2;}`. -/
def answering : FunctionDef where
  name := "f"
  params := []
  body := [
    .while (sampleNumber "1" 3 16 0) (.block [
      .branches [(sampleNumber "1" 3 23 1, .line [.return (some (sampleNumber "300" 4 33 2))])]
        none]),
    .line [.expr (sampleNumber "2" 5 39 3)]]
  returnType := .char

/-- The return is the last step of the call, and its value is turned into a character. -/
theorem return_final_answering :
    ∃ m, (Run.call (fun _ => none) 3 answering [] none).exec .start =
      .ok (some (.int ⟨44, 8, true⟩)) m := by
  have hanswers : ((Activity.call (fun _ => none) 2 answering []).steps
      (Machine.start.enterCall answering.name)).map CallStep.answer? =
        [none, none, none, some (some (.int (.plain 300)))] := by decide +kernel
  obtain ⟨before, after, hsteps⟩ := CallStep.split_at_answer hanswers
    (List.mem_of_getElem? (i := 3) rfl)
  have hplain : Stmt.AllBeginPlainly answering.body := by
    simp [answering, Stmt.AllBeginPlainly, Stmt.BeginsPlainly, Stmt.BranchesBeginPlainly,
      Stmt.OtherwiseBeginsPlainly]
  obtain ⟨-, -, t, -, -, hvalue⟩ := Run.return_final none rfl (by decide) hplain hsteps
  exact ⟨t.leaveCall 0, (hvalue _ rfl (by decide)).trans rfl⟩

/-! ## A return in the header of a loop -/

/-- The program `int main(){for (return 5; 0; ) ; printf(1); return 0;}`. -/
def restarting : Program where
  items := [
    .function (sampleInt 1 0) (sampleName "main" 2 5 1) [] [
      .for (some (.return (some (sampleNumber "5" 3 24 2))))
        (some (.expr (sampleNumber "0" 4 27 3))) none (.line []),
      .line [.expr (.call (.identifier (sampleName "printf" 5 34 4)) [sampleNumber "1" 6 41 5])],
      .line [.return (some (sampleNumber "0" 4 52 6))]]]

/-- The function `int f(){for (return 5; 0; ) ; return 0;}`. -/
def dropping : FunctionDef where
  name := "f"
  params := []
  body := [
    .for (some (.return (some (sampleNumber "5" 3 20 2))))
      (some (.expr (sampleNumber "0" 4 23 3))) none (.line []),
    .line [.return (some (sampleNumber "0" 4 37 4))]]
  returnType := .int

/-- A return is not always final: the loop drops the one in its header, and the accepted program
goes on and prints 1. -/
theorem not_return_final :
    restarting.Accepted ∧ (restarting.run (fun _ => none) 100).2.output = "1\n" ∧
    ¬∀ (known : Nat → Option CType) (fuel : Nat) (f : FunctionDef) (args : List Value) (m : Machine)
      (before after : List CallStep) (v : Option Value), args.length = f.params.length →
      m.depth < Run.maxDepth →
      (Activity.call known fuel f args).steps (m.enterCall f.name) =
        before ++ .answer v :: after →
      after = [] := by
  have haccepted : restarting.Accepted := by
    unfold Accepted
    cbv
  refine ⟨haccepted, by decide +kernel, fun hall => ?_⟩
  have hanswers : ((Activity.call (fun _ => none) 2 dropping []).steps
      (Machine.start.enterCall dropping.name)).map CallStep.answer? =
        [none, some (some (.int (.plain 5))), none, none, some (some (.int (.plain 0)))] := by
    decide +kernel
  obtain ⟨before, after, hsteps⟩ := CallStep.split_at_answer hanswers
    (List.mem_of_getElem? (i := 1) rfl)
  obtain rfl := hall (fun _ => none) 2 dropping [] .start before after _ rfl (by decide) hsteps
  rw [hsteps] at hanswers
  have hlast := congrArg List.getLast? hanswers
  simp [CallStep.answer?, MachineInt.plain] at hlast

end Program

end MiniC
