import MiniC.Proofs.Ranges.Evaluated

set_option autoImplicit false

/-! # Executing statements and programs in a domain

In contexts in which calls are parallel, so are all statements of a program of the domain; calls
with one step more are parallel therefore, and so are all runs of the program in the end. -/

namespace MiniC

/-- Whether the value that a statement returns fits, if it returns one. -/
def Domain.Ends (D : Domain) : Signal → Prop
  | .return (some v) => D.Fits v
  | _ => True

namespace Run

variable {D : Domain}

/-! ## Control -/

theorem parallel_onward {signal : Signal} (hsignal : D.Ends signal) {next next' : Run Signal}
    (hnext : Parallel D next next' D.Ends) :
    Parallel D (onward signal next) (onward signal next') D.Ends := by
  cases signal with
  | normal => exact hnext
  | _ => exact stays_pure hsignal

theorem parallel_turn {body body' next next' : Run Signal} (hbody : Parallel D body body' D.Ends)
    (hnext : Parallel D next next' D.Ends) :
    Parallel D (turn body next) (turn body' next') D.Ends := by
  refine hbody.bind fun signal hsignal => ?_
  cases signal with
  | normal | «continue» => exact hnext
  | «break» => exact stays_pure trivial
  | _ => exact stays_pure hsignal

theorem parallel_loop {test test' : Run Bool} {body body' : Run Signal} {step step' : Run Unit}
    (htest : Parallel D test test' fun _ => True) (hbody : Parallel D body body' D.Ends)
    (hstep : Parallel D step step' fun _ => True) (fuel : Nat) (bodyFirst : Bool) :
    Parallel D (loop test body step fuel bodyFirst) (loop test' body' step' fuel bodyFirst)
      D.Ends := by
  induction fuel generalizing bodyFirst with
  | zero => exact stays_stop .unfinished fun _ => by decide
  | succ fuel ih =>
    rw [loop, loop]
    -- every turn uses up a step, and only the first one may leave the test out
    have hfirst : Parallel D (if bodyFirst then pure true else test)
        (if bodyFirst then pure true else test') fun _ => True :=
      .ite (fun _ => stays_pure trivial) fun _ => htest
    refine hfirst.bind fun b _ => .ite (fun _ => ?_) fun _ => stays_pure trivial
    exact parallel_turn hbody (hstep.bind fun _ _ => ih false)

theorem parallel_jumping {resume resume' : String → Option (Run Signal)} {start start' : Run Signal}
    (hresume : ∀ name,
      Option.Rel (fun x y => Parallel D x y D.Ends) (resume name) (resume' name))
    (hstart : Parallel D start start' D.Ends) (fuel : Nat) :
    Parallel D (jumping resume fuel start) (jumping resume' fuel start') D.Ends := by
  induction fuel generalizing start start' with
  | zero => exact stays_stop .unfinished fun _ => by decide
  | succ fuel ih =>
    rw [jumping, jumping]
    refine hstart.bind fun signal hsignal => ?_
    cases signal with
    | goto label =>
      -- both runs find the label, or neither does
      have hnext := hresume label.text
      dsimp only
      generalize resume label.text = next, resume' label.text = next' at hnext ⊢
      cases hnext with
      | none => exact stays_pure trivial
      | some hnext => exact ih hnext
    | _ => exact stays_pure hsignal

/-! ## Instructions -/

variable {ctx ctx' : Context}

section

variable (h : Twins D ctx ctx')

include h

theorem parallel_bareInstr {i : Instr} (hi : D.Covers i.occurrences) :
    Parallel D (bareInstr ctx i) (bareInstr ctx' i) D.Ends := by
  cases i with
  | expr e =>
    have heval : Parallel D (do
          let _ ← eval ctx e
          pure Signal.normal)
        (do
          let _ ← eval ctx' e
          pure Signal.normal) D.Ends :=
      (parallel_eval h e hi).bind fun _ _ => stays_pure trivial
    cases e with
    | call callee args =>
      simp only [Instr.occurrences, Expr.occurrences, Domain.covers_cons,
        Domain.covers_append] at hi
      exact (parallel_evalCall h callee args hi.2.2).bind fun _ _ => stays_pure trivial
    | _ => exact heval
  | declare d => exact (parallel_declaration h hi).bind fun _ _ => stays_pure trivial
  | «break» token | «continue» token | goto label => exact stays_pure trivial
  | «return» value =>
    cases value with
    | none => exact stays_pure trivial
    | some e =>
      rw [Instr.occurrences, Option.toList_some, List.flatMap_singleton] at hi
      exact (parallel_eval h e hi).bind fun v hv => stays_pure hv.fits

theorem parallel_instr {i : Instr} (hi : D.Covers i.occurrences) :
    Parallel D (instr ctx i) (instr ctx' i) D.Ends :=
  (parallel_bareInstr h hi).located _

theorem parallel_instrs {is : List Instr} (his : D.Covers (is.flatMap Instr.occurrences)) :
    Parallel D (instrs ctx is) (instrs ctx' is) D.Ends := by
  induction is with
  | nil => exact stays_pure trivial
  | cons i rest ih =>
    rw [List.flatMap_cons, Domain.covers_append] at his
    exact (parallel_instr h his.1).bind fun signal hsignal => parallel_onward hsignal (ih his.2)

theorem parallel_instrValue {i : Instr} (hi : D.Covers i.occurrences) :
    Parallel D (instrValue ctx i) (instrValue ctx' i) fun _ => True := by
  cases i with
  | expr e => exact (parallel_eval h e hi).imp fun _ _ => trivial
  | _ => exact stays_fail _ _

theorem parallel_loopTest {cond : Option Instr}
    (hcond : D.Covers (cond.toList.flatMap Instr.occurrences)) :
    Parallel D (loopTest ctx cond) (loopTest ctx' cond) fun _ => True := by
  cases cond with
  | none => exact stays_pure trivial
  | some i =>
    rw [Option.toList_some, List.flatMap_singleton] at hcond
    exact (parallel_instrValue h hcond).bind fun v _ => stays_truth v

theorem parallel_loopStep {step : Option Instr}
    (hstep : D.Covers (step.toList.flatMap Instr.occurrences)) :
    Parallel D (loopStep ctx step) (loopStep ctx' step) fun _ => True := by
  cases step with
  | none => exact stays_pure trivial
  | some i =>
    rw [Option.toList_some, List.flatMap_singleton] at hstep
    exact (parallel_instrValue h hstep).bind fun _ _ => stays_pure trivial

theorem parallel_loopStart {init : Option Instr}
    (hinit : D.Covers (init.toList.flatMap Instr.occurrences)) :
    Parallel D (loopStart ctx init) (loopStart ctx' init) fun _ => True := by
  cases init with
  | none => exact stays_pure trivial
  | some i =>
    rw [Option.toList_some, List.flatMap_singleton] at hinit
    exact (parallel_instr h hinit).bind fun _ _ => stays_pure trivial

theorem parallel_isChosen (selector : Value) {label : Option Expr}
    (hlabel : D.Covers (label.toList.flatMap Expr.occurrences)) :
    Parallel D (isChosen ctx selector label) (isChosen ctx' selector label) fun _ => True := by
  cases label with
  | none => exact stays_pure trivial
  | some e =>
    rw [Option.toList_some, List.flatMap_singleton] at hlabel
    exact (parallel_eval h e hlabel).bind fun v _ => stays_lift fun _ _ => trivial

theorem parallel_test {cond : Expr} (hcond : D.Covers cond.occurrences) :
    Parallel D (do truth (← eval ctx cond)) (do truth (← eval ctx' cond)) fun _ => True :=
  (parallel_eval h cond hcond).bind fun v _ => stays_truth v

end

theorem ends_afterCase {signal : Signal} (hsignal : D.Ends signal) :
    D.Ends (afterCase signal) := by
  cases signal with
  | «break» => trivial
  | _ => exact hsignal

/-! ## Statements -/

mutual

theorem parallel_stmt (h : Twins D ctx ctx') (fuel : Nat) (s : Stmt)
    (hs : D.Covers s.occurrences) :
    Parallel D (stmt ctx fuel s) (stmt ctx' fuel s) D.Ends := by
  cases s with
  | block body =>
    rw [Stmt.occurrences] at hs
    rw [stmt, stmt]
    exact (parallel_jumping (parallel_resume h fuel body hs) (parallel_stmts h fuel body hs)
      fuel).inScope
  | line is =>
    rw [Stmt.occurrences] at hs
    rw [stmt, stmt]
    exact parallel_instrs h hs
  | label name => exact stays_pure trivial
  | branches conditional otherwise =>
    simp only [Stmt.occurrences, Domain.covers_append] at hs
    rw [stmt, stmt]
    refine parallel_branches h fuel ?_ conditional hs.1
    cases otherwise with
    | none => exact stays_pure trivial
    | some body => exact parallel_stmt h fuel body hs.2
  | «while» cond body =>
    simp only [Stmt.occurrences, Domain.covers_append] at hs
    rw [stmt, stmt]
    exact (parallel_loop (parallel_test h hs.1) (parallel_stmt h fuel body hs.2)
      (stays_pure trivial) fuel _).inScope
  | doWhile cond body =>
    simp only [Stmt.occurrences, Domain.covers_append] at hs
    rw [stmt, stmt]
    exact (parallel_loop (parallel_test h hs.1) (parallel_stmt h fuel body hs.2)
      (stays_pure trivial) fuel _).inScope
  | «for» init cond step body =>
    simp only [Stmt.occurrences, Domain.covers_append] at hs
    obtain ⟨hinit, hcond, hstep, hbody⟩ := hs
    rw [stmt, stmt]
    refine ((parallel_loopStart h hinit).bind fun _ _ => Parallel.inScope ?_).inScope
    exact parallel_loop (parallel_loopTest h hcond) (parallel_stmt h fuel body hbody)
      (parallel_loopStep h hstep) fuel _
  | «switch» selector parts =>
    simp only [Stmt.occurrences, Domain.covers_append] at hs
    rw [stmt, stmt]
    exact (parallel_eval h selector hs.1).bind fun v _ => parallel_cases h fuel v parts hs.2

theorem parallel_stmts (h : Twins D ctx ctx') (fuel : Nat) (body : List Stmt)
    (hbody : D.Covers (Stmt.occurrences.occurrencesAll body)) :
    Parallel D (stmts ctx fuel body) (stmts ctx' fuel body) D.Ends := by
  cases body with
  | nil => exact stays_pure trivial
  | cons s rest =>
    rw [Stmt.occurrences.occurrencesAll, Domain.covers_append] at hbody
    rw [stmts, stmts]
    exact (parallel_stmt h fuel s hbody.1).bind fun signal hsignal =>
      parallel_onward hsignal (parallel_stmts h fuel rest hbody.2)

theorem parallel_resume (h : Twins D ctx ctx') (fuel : Nat) (body : List Stmt)
    (hbody : D.Covers (Stmt.occurrences.occurrencesAll body)) (name : String) :
    Option.Rel (fun x y => Parallel D x y D.Ends) (resume ctx fuel body name)
      (resume ctx' fuel body name) := by
  cases body with
  | nil => exact .none
  | cons s rest =>
    rw [Stmt.occurrences.occurrencesAll, Domain.covers_append] at hbody
    rw [resume, resume]
    -- a label in what comes later is found before the one in front of it
    have hnext := parallel_resume h fuel rest hbody.2 name
    generalize resume ctx fuel rest name = next, resume ctx' fuel rest name = next' at hnext ⊢
    cases hnext with
    | some hnext => exact .some hnext
    | none =>
      dsimp only
      split
      · exact .some (parallel_stmts h fuel rest hbody.2)
      · exact .none

theorem parallel_branches (h : Twins D ctx ctx') (fuel : Nat) {otherwise otherwise' : Run Signal}
    (hotherwise : Parallel D otherwise otherwise' D.Ends) (conditional : List (Expr × Stmt))
    (hconditional : D.Covers (Stmt.occurrences.occurrencesBranches conditional)) :
    Parallel D (branches ctx fuel otherwise conditional)
      (branches ctx' fuel otherwise' conditional) D.Ends := by
  cases conditional with
  | nil => exact hotherwise
  | cons branch rest =>
    obtain ⟨cond, body⟩ := branch
    rw [Stmt.occurrences.occurrencesBranches, Domain.covers_append,
      Domain.covers_append] at hconditional
    obtain ⟨hcond, hbody, hrest⟩ := hconditional
    rw [branches, branches]
    refine (parallel_eval h cond hcond).bind fun v _ => (stays_truth v).bind fun b _ => ?_
    exact .ite (fun _ => parallel_stmt h fuel body hbody)
      fun _ => parallel_branches h fuel hotherwise rest hrest

theorem parallel_cases (h : Twins D ctx ctx') (fuel : Nat) (selector : Value)
    (parts : List (Option Expr × List Stmt))
    (hparts : D.Covers (Stmt.occurrences.occurrencesCases parts)) :
    Parallel D (cases ctx fuel selector parts) (cases ctx' fuel selector parts) D.Ends := by
  cases parts with
  | nil => exact stays_pure trivial
  | cons part rest =>
    obtain ⟨label, body⟩ := part
    rw [Stmt.occurrences.occurrencesCases, Domain.covers_append, Domain.covers_append] at hparts
    obtain ⟨hlabel, hbody, hrest⟩ := hparts
    rw [cases, cases]
    refine (parallel_isChosen h selector hlabel).bind fun b _ => .ite (fun _ => ?_) fun _ => ?_
    · have hblock := (parallel_jumping (parallel_resume h fuel body hbody)
        (parallel_stmts h fuel body hbody) fuel).inScope
      exact hblock.bind fun signal hsignal => stays_pure (ends_afterCase hsignal)
    · exact parallel_cases h fuel selector rest hrest

end

/-! ## Calls -/

variable {known known' : Nat → Option CType}

section

variable (hD : D.Admits known known')

include hD

theorem parallel_bindParams {params : List Declarator}
    (hparams : D.Covers (params.flatMap Declarator.outline)) {args : List Value}
    (hargs : ∀ v ∈ args, D.Fits v) :
    Parallel D (bindParams known params args) (bindParams known' params args) fun _ => True := by
  induction params generalizing args with
  | nil => exact stays_pure trivial
  | cons d params ih =>
    cases args with
    | nil => exact stays_pure trivial
    | cons v args =>
      rw [List.flatMap_cons, Domain.covers_append] at hparams
      obtain ⟨hv, hrest⟩ := List.forall_mem_cons.mp hargs
      have htype := parallel_resolve hD (hparams.1 _ List.mem_cons_self)
      rw [bindParams, bindParams]
      refine (htype.bind fun _ _ => stays_pure trivial).bind fun t (_ : True) => ?_
      refine (stays_convert hD t hv _).bind fun w hw => ?_
      exact (stays_introduce _ t hw).bind fun _ _ => ih hparams.2 hrest

theorem stays_callResult (f : FunctionDef) (pos : Option Position) {signal : Signal}
    (hsignal : D.Ends signal) :
    Stays D (callResult f pos signal) fun result => ∀ v ∈ result, D.Fits v := by
  have hnone : ∀ v ∈ (none : Option Value), D.Fits v := fun v hv => by cases hv
  cases signal with
  | normal => exact stays_pure hnone
  | «break» | «continue» => exact stays_fail _ _
  | goto label => exact stays_failAt _ _
  | «return» value =>
    cases value with
    | none => exact stays_pure hnone
    | some v =>
      rw [callResult]
      refine .ite (fun _ => stays_pure hnone) fun _ => ?_
      refine (stays_convert hD _ hsignal pos).bind fun w hw => stays_pure ?_
      rintro _ ⟨⟩
      exact hw

/-- Calls are parallel, however many steps they may take. -/
theorem parallel_call (fuel : Nat) (f : FunctionDef) (args : List Value) (pos : Option Position)
    (hf : D.Covers f.code) (hargs : ∀ v ∈ args, D.Fits v) :
    Parallel D (call known fuel f args pos) (call known' fuel f args pos)
      fun result => ∀ v ∈ result, D.Fits v := by
  induction fuel generalizing f args pos with
  | zero => exact stays_stop .unfinished fun _ => by decide
  | succ fuel ih =>
    -- the calls in the body of the function have one step less
    have htwins : Twins D ⟨known, call known fuel⟩ ⟨known', call known' fuel⟩ :=
      { hD with calls := ih, pointers := hD.yielded fuel }
    rw [FunctionDef.code, Domain.covers_append] at hf
    rw [call, call]
    refine .reject fun _ => stays_get.bind fun m _ => .reject fun _ => ?_
    refine (Parallel.inCall f.name ?_).bind fun signal hsignal =>
      stays_callResult hD f pos hsignal
    refine (parallel_bindParams hD hf.1 hargs).bind fun _ _ => ?_
    exact parallel_stmt htwins fuel (.block f.body) (by rw [Stmt.occurrences]; exact hf.2)

theorem twins (fuel : Nat) :
    Twins D ⟨known, call known fuel⟩ ⟨known', call known' fuel⟩ :=
  { hD with calls := parallel_call hD fuel, pointers := hD.yielded fuel }

end

/-! ## Programs -/

theorem stays_register (id : Nat) {f : FunctionDef} (hf : D.Covers f.code) :
    Stays D (modify fun m : Machine => { m with functions := setUnder id f m.functions })
      fun _ => True := by
  let register (m : Machine) : Machine := { m with functions := setUnder id f m.functions }
  refine stays_of_step (f := fun m => ((), register m)) (fun _ => rfl) (fun _ => rfl)
    (fun m hm hstate => ⟨hstate, hm.held, fun entry hentry => ?_⟩) (fun _ => .of_same rfl rfl)
    fun _ _ _ => trivial
  rcases mem_setUnder hentry with rfl | hentry
  · exact hf
  · exact hm.functions entry hentry

section

variable (h : Twins D ctx ctx')

include h

theorem parallel_structField (decl : Nat) {d : Declarator} (hd : D.Covers d.outline) :
    Parallel D (structField ctx decl d) (structField ctx' decl d) fun _ => True := by
  refine (parallel_declaredType h hd).bind fun t _ => ?_
  dsimp only
  refine Parallel.bind (P := fun _ => True) ?_ fun _ _ => ?_
  · exact stays_modify (fun _ _ _ => .inr) (fun _ => rfl) fun _ => .of_same rfl rfl
  refine .ite (fun _ => ?_) fun _ => stays_pure trivial
  refine (parallel_arraySizes h hd none).bind fun sizes _ => ?_
  exact stays_modify (fun _ _ _ => .inr) (fun _ => rfl) fun _ => .of_same rfl rfl

theorem parallel_structDecl (name : Leaf) {fields : List Declarator}
    (hfields : D.Covers (fields.flatMap Declarator.outline)) :
    Parallel D (structDecl ctx name fields) (structDecl ctx' name fields) fun _ => True := by
  refine Parallel.bind (P := fun _ => True) ?_ fun decl _ => ?_
  · exact stays_modifyGet (fun _ _ _ => .inr) (fun _ => rfl) (fun _ => .of_same rfl rfl)
      fun _ _ _ => trivial
  · exact .forM fun d hd => parallel_structField h decl (Domain.covers_flatMap.mp hfields d hd)

theorem parallel_item {i : Item} (hi : D.Covers i.code) :
    Parallel D (item ctx i) (item ctx' i) fun _ => True := by
  cases i with
  | directive token => exact stays_pure trivial
  | struct name fields => exact parallel_structDecl h name hi
  | function returnType name params body =>
    rw [Item.code, Domain.covers_cons] at hi
    refine (parallel_resolve h.toAdmits hi.1).bind fun t _ => ?_
    exact stays_register _ hi.2
  | prototype returnType name params =>
    exact stays_modify (fun _ _ _ => .inr) (fun _ => rfl) fun _ => .of_same rfl rfl
  | declaration d => exact parallel_declaration h hi

end

/-- The runs of a program are parallel. -/
theorem parallel_program (hD : D.Admits known known') (fuel : Nat) {p : Program}
    (hp : D.Covers p.code) :
    Parallel D (program known fuel p) (program known' fuel p) fun _ => True := by
  have hitems : Parallel D (p.items.forM (item ⟨known, call known fuel⟩))
      (p.items.forM (item ⟨known', call known' fuel⟩)) fun _ => True :=
    .forM fun i hi => parallel_item (twins hD fuel) (Domain.covers_flatMap.mp hp i hi)
  refine hitems.bind fun _ _ => stays_get.bind fun m hm => ?_
  cases hmain : mainFunction? m.functions with
  | none => exact stays_fail _ _
  | some f =>
    -- the main function was registered, so its body is a part of the program
    obtain ⟨entry, hentry, rfl⟩ :=
      List.mem_map.mp (List.mem_reverse.mp (List.mem_of_find?_eq_some hmain))
    refine Parallel.bind (P := fun _ => True) ?_ fun _ _ => ?_
    · exact stays_modify (fun _ _ _ => .inr) (fun _ => rfl) fun _ => .of_same rfl rfl
    refine (parallel_call hD fuel entry.2 [] _ (hm.functions _ hentry) ?_).bind
      fun _ _ => stays_pure trivial
    exact List.forall_mem_nil _

end Run

end MiniC
