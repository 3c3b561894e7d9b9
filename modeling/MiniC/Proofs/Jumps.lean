import MiniC.Proofs.Composed
import MiniC.Proofs.Jumps.Landing
import MiniC.Proofs.Linkage

set_option autoImplicit false

/-! # Jumps in accepted programs

In an accepted program every jump names exactly one label of its function. If the label is in reach,
the call goes on there; otherwise the call ends, with a fault at the jump. Nothing else ends a run
with a missing label. -/

namespace MiniC

/-! ## How a call goes on after a jump -/

/-- The jump that a step is. -/
def CourseStep.jump? : CourseStep → Option Jump
  | .jump j => some j
  | _ => none

theorem CourseStep.split_at_jump {steps : List CourseStep} {j : Jump} {jumps}
    (h : steps.map CourseStep.jump? = jumps) (hj : some j ∈ jumps) :
    ∃ before after, steps = before ++ .jump j :: after := by
  rw [← h] at hj
  obtain ⟨step, hstep, hj⟩ := List.mem_map.mp hj
  cases step with
  | jump k =>
    cases hj
    exact List.append_of_mem hstep
  | instr _ | expr _ | label _ => cases hj

/-- The stop of a call that makes a jump whose label is not in reach. -/
def Jump.stop (j : Jump) : Stop := .fault (.missingLabel j.name) (some j.label.token.pos)

/-- How a call of a function goes on after a jump, with the steps that come next and the result of
the call: at the only label of that name, unless no steps are left for jumps, if it is in reach. -/
structure Jump.Resolves (f : FunctionDef) (j : Jump) (after : List CourseStep)
    (result : EStateM.Result Stop Machine (Option Value)) : Prop where
  mem : j ∈ f.jumps
  unique : ∃! name, name ∈ f.labels ∧ name.token.text = j.name
  lands : j.Lands → (∃ name rest, after = .label name :: rest ∧ name ∈ f.labels ∧
    name.token.text = j.name) ∨ after = [] ∧ ∃ m, result = .error .unfinished m
  misses : ¬j.Lands → after = [] ∧ ∃ m, result = .error j.stop m

/-- Whether a function is declared with its body in a program. -/
def Program.HasFunction (p : Program) (f : FunctionDef) : Prop :=
  ∃ returnType name, .function returnType name f.params f.body ∈ p.items ∧
    f.name = name.token.text

namespace Check.Resolved

/-- A jump in resolved statements goes to exactly one of their labels. -/
theorem existsUnique {labels gotos : List Leaf} (h : Resolved labels gotos) {goto : Leaf}
    (hgoto : goto ∈ gotos) :
    ∃! name, name ∈ labels ∧ name.token.text = goto.token.text := by
  obtain ⟨name, hname, htext⟩ := List.mem_map.mp (h.mem goto hgoto)
  refine ⟨name, ⟨hname, htext⟩, fun other hother => ?_⟩
  exact List.inj_on_of_nodup_map h.nodup hother.1 hname (hother.2.trans htext.symm)

end Check.Resolved

namespace Run

/-! ## Calls -/

section

variable {known : Nat → Option CType} {fuel : Nat} {f : FunctionDef} {args : List Value}

/-- A jump leaves a call only if it is the last step, and its label is not in reach. -/
theorem exists_jump_of_goto {token : Token} {m t : Machine}
    (h : (Activity.call known fuel f args).exec m = .ok (.goto token) t) :
    ∃ j ∈ f.jumps, ¬j.Lands ∧ j.label.token = token := by
  rw [← Course.exec_call] at h
  have hm := Course.guides_call known fuel f args m
  obtain ⟨j, hj, rfl⟩ := hm.left token t h
  refine ⟨j, hm.within _ (List.mem_of_getLast? hj), ?_, rfl⟩
  rcases hm.last j hj with ⟨_, -, hlands⟩ | ⟨-, u, hu⟩
  · exact fun hn => List.not_mem_nil (hlands.mp hn)
  · rw [h] at hu
    cases hu

/-- How a call goes on after a jump, if all jumps of the function name one of its labels. -/
theorem resolves_of_deeds (hresolved : Check.Resolved f.labels (Stmt.gotos.gotosAll f.body))
    (pos : Option Position) {m : Machine} {before after : List CourseStep} {j : Jump}
    (hargs : args.length = f.params.length) (hdepth : m.depth < maxDepth)
    (hsteps : (Course.call known fuel f args).deeds (m.enterCall f.name) =
      before ++ .jump j :: after) :
    j.Resolves f after ((call known (fuel + 1) f args pos).exec m) := by
  have hm := Course.guides_call known fuel f args (m.enterCall f.name)
  have hcall : (call known (fuel + 1) f args pos).exec m = _ := Activity.exec_call hargs hdepth
  rw [← Course.exec_call] at hcall
  rw [hsteps] at hm
  have hmem : j ∈ f.jumps :=
    hm.within (.jump j) (List.mem_append_right _ List.mem_cons_self)
  have hunique : ∃! name, name ∈ f.labels ∧ name.token.text = j.name :=
    hresolved.existsUnique (Stmt.label_mem_gotos (.block f.body) [] j hmem)
  cases after with
  | cons next rest =>
    -- What comes after the jump is a label with its name, found in the same call.
    have hchain := (List.isChain_append.mp hm.chain).2.1
    obtain ⟨hlands, name, rfl, htext⟩ := (List.isChain_cons_cons.mp hchain).1 j rfl
    have hname : name ∈ f.labels :=
      hm.within (.label name) (List.mem_append_right _ (List.mem_cons_of_mem _ List.mem_cons_self))
    exact ⟨hmem, hunique, fun _ => .inl ⟨name, rest, rfl, hname, htext⟩, fun hn => absurd hlands hn⟩
  | nil =>
    rcases hm.last j List.getLast?_concat with ⟨t, ht, hlands⟩ | ⟨hlands, t, ht⟩
    · have hn : ¬j.Lands := fun h => List.not_mem_nil (hlands.mp h)
      rw [ht] at hcall
      exact ⟨hmem, hunique, fun h => absurd h hn, fun _ => ⟨rfl, _, hcall⟩⟩
    · rw [ht] at hcall
      exact ⟨hmem, hunique, fun _ => .inr ⟨rfl, _, hcall⟩, fun hn => absurd hlands hn⟩

end

/-! ## Runs that lose no label -/

/-- Whether all functions that are known in a state are from `F`. -/
def HasOnly (F : FunctionDef → Prop) (m : Machine) : Prop :=
  ∀ entry ∈ m.functions, F entry.2

/-- Whether a stop comes from a jump of a function from `F` whose label is not in reach. -/
def Misses (F : FunctionDef → Prop) (stop : Stop) : Prop :=
  ∃ f, F f ∧ ∃ j ∈ f.jumps, ¬j.Lands ∧ stop = j.stop

/-- Whether a run that begins with functions from `F` ends with such functions, unless it is
stopped, and only their jumps stop it for a missing label. -/
structure Confined (F : FunctionDef → Prop) {α : Type} (x : Run α) : Prop where
  functions : ∀ m, HasOnly F m → ∀ a t, x.exec m = .ok a t → HasOnly F t
  stops : ∀ m, HasOnly F m → ∀ stop t, x.exec m = .error stop t → stop.isMissingLabel →
    Misses F stop

variable {F : FunctionDef → Prop} {α β : Type}

theorem confined_throw {stop : Stop} (h : stop.isMissingLabel → Misses F stop) :
    Confined F (throw stop : Run α) where
  functions _ _ _ _ h := by cases h
  stops := by
    intro m _ stop t h
    cases h
    assumption

/-- A step that cannot fail, and keeps what functions are known. -/
theorem confined_of_still {x : Run α}
    (hx : ∀ m, ∃ a t, x.exec m = .ok a t ∧ t.functions = m.functions) : Confined F x where
  functions m hm a t h := by
    obtain ⟨b, u, hexec, hfunctions⟩ := hx m
    rw [h] at hexec
    cases hexec
    rw [HasOnly, hfunctions]
    exact hm
  stops m hm stop t h := by
    obtain ⟨b, u, hexec, -⟩ := hx m
    rw [h] at hexec
    cases hexec

namespace Confined

/-- What comes second matters only for the results of what comes first. -/
theorem bind {x : Run α} {f : α → Run β} (hx : Confined F x)
    (hf : ∀ m a t, x.exec m = .ok a t → Confined F (f a)) : Confined F (x >>= f) where
  functions m hm b u h := by
    obtain ⟨a, t, ha, hb, -⟩ := Traced.exec_bind_eq_ok h
    exact (hf m a t ha).functions t (hx.functions m hm a t ha) b u hb
  stops m hm stop u h := by
    cases hexec : x.exec m with
    | ok a t =>
      rw [Traced.exec_bind_of_ok f hexec] at h
      exact (hf m a t hexec).stops t (hx.functions m hm a t hexec) stop u h
    | error stop' t =>
      rw [Traced.exec_bind_of_error f hexec] at h
      cases h
      exact hx.stops m hm stop _ hexec

/-- A run between two changes of the state that keep what functions are known. -/
theorem between {x : Run α} (hx : Confined F x) {first last : Option Deed}
    {enter leave : Machine → Machine} (henter : ∀ m, (enter m).functions = m.functions)
    (hleave : ∀ m, (leave m).functions = m.functions) :
    Confined F (x.between first last enter leave) where
  functions m hm a t h := by
    have hm' : HasOnly F (enter m) := by rwa [HasOnly, henter]
    simp only [Traced.between] at h
    split at h
    · rename_i hexec
      cases h
      rw [HasOnly, hleave]
      exact hx.functions _ hm' _ _ hexec
    · cases h
  stops m hm stop t h := by
    have hm' : HasOnly F (enter m) := by rwa [HasOnly, henter]
    simp only [Traced.between] at h
    split at h
    · cases h
    · rename_i hexec
      cases h
      exact hx.stops _ hm' _ _ hexec

theorem located {x : Run α} (hx : Confined F x) (pos : Option Position) :
    Confined F (located pos x) where
  functions m hm a t h := by
    simp only [Run.located, Traced.mapError] at h
    split at h
    · rename_i hexec
      cases h
      exact hx.functions m hm _ _ hexec
    · cases h
  stops m hm stop t h := by
    simp only [Run.located, Traced.mapError] at h
    split at h
    · cases h
    · rename_i stop' u hexec
      cases h
      intro hmissing
      have hsame : (Stop.locate pos stop').isMissingLabel = stop'.isMissingLabel := by
        cases stop' with
        | fault cause at? => cases at? <;> rfl
        | _ => rfl
      obtain ⟨f, hf, j, hj, hlands, rfl⟩ := hx.stops m hm stop' _ hexec (hsame ▸ hmissing)
      exact ⟨f, hf, j, hj, hlands, rfl⟩

end Confined

theorem confined_observe {α : Type} {f : Machine → Run α}
    (hf : ∀ m, HasOnly F m → Confined F (f m)) : Confined F (get >>= f) where
  functions m hm a t h := (hf m hm).functions m hm a t h
  stops m hm stop t h := (hf m hm).stops m hm stop t h

/-- A step that changes something else than the known functions. -/
theorem confined_modifyGet {f : Machine → α × Machine}
    (hf : ∀ m, (f m).2.functions = m.functions) : Confined F (modifyGet f : Run α) :=
  confined_of_still fun m => ⟨(f m).1, (f m).2, rfl, hf m⟩

theorem stepping_confined (F : FunctionDef → Prop) : Stepping (Confined F) where
  pure a := confined_of_still fun m => ⟨a, m, rfl, rfl⟩
  bind hx hf := hx.bind fun _ a _ _ => hf a
  stop hstop _ := confined_throw fun h => by
    rw [(Bool.or_eq_false_iff.mp hstop).2] at h
    cases h
  anyStop stop _ hstop := confined_throw fun h => by
    rw [hstop] at h
    cases h
  observe _ hf := confined_observe fun m _ => hf m fun _ => confined_throw fun h => by cases h
  observeName _ _ _ hf := confined_observe fun m _ => hf m
  alloc _ := confined_modifyGet fun _ => rfl
  put _ _ := confined_modifyGet fun _ => rfl
  beside f hf _ := confined_modifyGet fun m => by
    obtain ⟨records, output, events, -, h⟩ := hf m
    rw [h]
  own _ := confined_modifyGet fun _ => rfl
  keepString _ _ := confined_modifyGet fun _ => rfl
  use _ := confined_of_still fun m => ⟨(), m, rfl, rfl⟩
  bindName _ _ _ := confined_modifyGet fun _ => rfl
  introduce _ _ _ := Confined.bind (confined_modifyGet fun _ => rfl) fun _ _ _ _ =>
    confined_of_still fun m => ⟨(), m, rfl, rfl⟩
  located pos hx := hx.located pos
  inScope hx := hx.between (fun _ => rfl) functions_pop
  inCall name hx := by
    refine confined_observe fun m _ => hx.between (fun _ => rfl) fun t => ?_
    exact functions_pop t

/-! ## Calls of functions of a program -/

/-- A jump leaves the body of a called function only if its label is not in reach. -/
theorem misses_of_inCall {known : Nat → Option CType} {fuel : Nat} {f : FunctionDef}
    {args : List Value} {label : Token} {m t : Machine} (hf : F f)
    (h : (inCall f.name do
      bindParams known f.params args
      stmt ⟨known, call known fuel⟩ fuel (.block f.body)).exec m = .ok (.goto label) t) :
    Misses F (.fault (.missingLabel label.text) (some label.pos)) := by
  obtain ⟨_, _, hget, h, -⟩ := Traced.exec_bind_eq_ok h
  cases hget
  simp only [Traced.between] at h
  split at h
  · rename_i hexec
    cases h
    rw [← Activity.exec_call_inside] at hexec
    obtain ⟨j, hj, hlands, rfl⟩ := exists_jump_of_goto hexec
    exact ⟨f, hf, j, hj, hlands, rfl⟩
  · cases h

/-- By induction on the steps that are left for nested calls. -/
theorem confined_call (known : Nat → Option CType) (fuel : Nat) :
    ComposedFor (Confined F) F ⟨known, call known fuel⟩ := by
  have hP := stepping_confined F
  have hcontext (ctx : Context) (hcalls : ∀ f, F f → ∀ args pos, Confined F (ctx.call f args pos)) :
      ComposedFor (Confined F) F ctx := by
    refine ⟨hP, fun _ hf => confined_observe fun m hm => hf m hm ?_, hcalls⟩
    exact fun _ => confined_throw fun h => by cases h
  induction fuel with
  | zero => exact hcontext _ fun f _ args pos => confined_throw fun h => by cases h
  | succ fuel ih =>
    refine hcontext _ fun f hf args pos => hP.call_of_inside ?_
    have hbody : Confined F (do
        bindParams known f.params args
        stmt ⟨known, call known fuel⟩ fuel (.block f.body)) :=
      (hP.bindParams known f.params args).bind fun _ _ _ _ => ih.stmt fuel _
    refine (hP.inCall f.name hbody).bind fun m signal t hexec => ?_
    refine hP.callResult f pos ?_
    rintro label rfl
    exact confined_throw fun _ => misses_of_inCall hf hexec

theorem defines_confined (F : FunctionDef → Prop) :
    Defines (Confined F) fun entry => F entry.2 := by
  intro f hf _
  refine ⟨fun m hm a t h => ?_, fun m _ stop t h => by cases h⟩
  cases h
  obtain ⟨functions, prototypes, h, hfunctions⟩ := hf m
  rw [HasOnly, h]
  exact fun entry hentry => (hfunctions entry hentry).elim (hm entry) id

theorem confined_program (known : Nat → Option CType) (fuel : Nat) (p : Program) :
    Confined p.HasFunction (program known fuel p) := by
  refine (confined_call known fuel).program (fun f => confined_modifyGet fun _ => rfl)
    (defines_confined _) p fun returnType name params body t hmem => ?_
  exact ⟨returnType, name, hmem, rfl⟩

end Run

namespace Program

/-- In an accepted program all jumps of a function name one of its labels. -/
theorem resolved_of_hasFunction {p : Program} (haccepted : p.Accepted) {f : FunctionDef}
    (hf : p.HasFunction f) : Check.Resolved f.labels (Stmt.gotos.gotosAll f.body) := by
  obtain ⟨returnType, name, hmem, -⟩ := hf
  exact resolved_of_accepted haccepted hmem

/-- A jump in a call of a function of an accepted program is made to the only label of its name. The
call goes on there if the label is in reach, and is stopped otherwise; no run of the program is
stopped for a missing label in another way. -/
theorem jumps_resolved {p : Program} (haccepted : p.Accepted) (known : Nat → Option CType)
    (fuel : Nat) :
    (∀ f args pos m before after j, p.HasFunction f → args.length = f.params.length →
      m.depth < Run.maxDepth →
      (Course.call known fuel f args).deeds (m.enterCall f.name) = before ++ .jump j :: after →
      j.Resolves f after ((Run.call known (fuel + 1) f args pos).exec m)) ∧
    ∀ name pos, (p.run known fuel).1 = .error (.fault (.missingLabel name) pos) →
      ∃ f, p.HasFunction f ∧ ∃ j ∈ f.jumps, ¬j.Lands ∧ j.name = name ∧
        pos = some j.label.token.pos := by
  refine ⟨fun f args pos m before after j hf hargs hdepth hsteps => ?_, fun name pos h => ?_⟩
  · exact Run.resolves_of_deeds (resolved_of_hasFunction haccepted hf) pos hargs hdepth hsteps
  · unfold run at h
    cases hexec : (Run.program known fuel p).exec .start with
    | ok _ m =>
      rw [hexec] at h
      cases h
    | error stop m =>
      rw [hexec] at h
      cases h
      have hstart : Run.HasOnly p.HasFunction .start := List.forall_mem_nil _
      obtain ⟨f, hf, j, hj, hlands, hstop⟩ :=
        (Run.confined_program known fuel p).stops .start hstart _ m hexec rfl
      cases hstop
      exact ⟨f, hf, j, hj, hlands, rfl, rfl⟩

/-! ## A jump out of a loop -/

/-- The function `int main(){while(1){if(1)goto out;} out: printf(1); return 0;}`. -/
def leavingMain : FunctionDef where
  name := "main"
  params := []
  body := [
    .while (sampleNumber "1" 7 18 2) (.block [
      .branches [(sampleNumber "1" 7 24 3, .line [.goto (sampleName "out" 10 31 4)])] none]),
    .label (sampleName "out" 10 37 5),
    .line [.expr (.call (.identifier (sampleName "printf" 14 42 6)) [sampleNumber "1" 7 49 7])],
    .line [.return (some (sampleNumber "0" 16 60 8))]]
  returnType := .int

/-- The program that consists of this function. -/
def leaving : Program where
  items := [.function (sampleInt 1 0) (sampleName "main" 2 5 1) [] leavingMain.body]

/-- The jump leaves the loop, and the call goes on at the label. -/
theorem jumps_resolved_leaving :
    leaving.Accepted ∧ leaving.HasFunction leavingMain ∧
    ∃ before after, (Course.call (fun _ => none) 5 leavingMain []).deeds
        (Machine.start.enterCall "main") =
      before ++ .jump ⟨sampleName "out" 10 31 4, ["out"]⟩ ::
        .label (sampleName "out" 10 37 5) :: after := by
  have haccepted : leaving.Accepted := by
    unfold Accepted
    cbv
  have hfunction : leaving.HasFunction leavingMain := ⟨_, _, List.mem_singleton_self _, rfl⟩
  refine ⟨haccepted, hfunction, ?_⟩
  have hjumps : ((Course.call (fun _ => none) 5 leavingMain []).deeds
      (Machine.start.enterCall "main")).map CourseStep.jump? =
        [none, none, some ⟨sampleName "out" 10 31 4, ["out"]⟩, none, none, none] := by
    decide +kernel
  obtain ⟨before, after, hsteps⟩ := CourseStep.split_at_jump hjumps
    (List.mem_of_getElem? (i := 2) rfl)
  have hresolves := (jumps_resolved haccepted (fun _ => none) 5).1 leavingMain [] none .start
    before after _ hfunction rfl (by decide) hsteps
  obtain ⟨m, hcall⟩ : ∃ m, (Run.call (fun _ => none) 6 leavingMain [] none).exec .start =
      .ok (some (.int (.plain 0))) m := Traced.exists_exec_of_run' (by decide +kernel)
  rcases hresolves.lands (by decide) with ⟨name, rest, rfl, hname, -⟩ | ⟨-, t, ht⟩
  · have hlabels : leavingMain.labels = [sampleName "out" 10 37 5] := by decide +kernel
    rw [hlabels, List.mem_singleton] at hname
    exact ⟨before, rest, hname ▸ hsteps⟩
  · rw [hcall] at ht
    cases ht

/-! ## A jump into a block -/

/-- The program `int main(){goto inner; { inner: printf(1); } return 0;}`. -/
def entering : Program where
  items := [
    .function (sampleInt 1 0) (sampleName "main" 2 5 1) [] [
      .line [.goto (sampleName "inner" 7 17 2)],
      .block [
        .label (sampleName "inner" 7 26 3),
        .line [.expr (.call (.identifier (sampleName "printf" 10 33 4))
          [sampleNumber "1" 11 40 5])]],
      .line [.return (some (sampleNumber "0" 14 53 6))]]]

/-- Not every jump of an accepted program comes to its label: the label may be inside another
block. -/
theorem not_jumps_land :
    entering.Accepted ∧
    (entering.run (fun _ => none) 100).1 =
      .error (.fault (.missingLabel "inner") (some ⟨1, 17⟩)) ∧
    (∀ records, (Fault.missingLabel "inner").message records = "Label inner not found.") ∧
    ¬∀ (p : Program) (known : Nat → Option CType) (fuel : Nat) (name : String)
      (pos : Option Position), p.Accepted →
      (p.run known fuel).1 ≠ .error (.fault (.missingLabel name) pos) := by
  have haccepted : entering.Accepted := by
    unfold Accepted
    cbv
  have hrun : (entering.run (fun _ => none) 100).1 =
      .error (.fault (.missingLabel "inner") (some ⟨1, 17⟩)) := by decide +kernel
  exact ⟨haccepted, hrun, fun _ => rfl, fun h => h entering _ _ _ _ haccepted hrun⟩

end Program

end MiniC
