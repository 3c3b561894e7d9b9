import Mathlib.Data.List.Chain
import MiniC.Proofs.Jumps.Course

set_option autoImplicit false

/-! # Where jumps land

A jump whose label is in reach is followed by that label, unless the steps that are left for jumps
run out. The other jumps end the call: each statement around such a jump hands it on. -/

namespace MiniC

namespace CourseStep

/-- Whether a step belongs to certain jumps and labels, if it is a jump or a label. -/
def Within (J : Jump → Prop) (L : Leaf → Prop) : CourseStep → Prop
  | .jump j => J j
  | .label name => L name
  | .instr _ | .expr _ => True

/-- Whether a step is neither a jump nor a label. -/
def IsCalm : CourseStep → Prop
  | .jump _ | .label _ => False
  | .instr _ | .expr _ => True

/-- Whether a step may come after another one: what comes after a jump is its label, which is in
reach. -/
def Follows (step next : CourseStep) : Prop :=
  ∀ j, step = .jump j → j.Lands ∧ ∃ name, next = .label name ∧ name.token.text = j.name

end CourseStep

namespace Course

open CourseStep

variable {J : Jump → Prop} {L : Leaf → Prop} {reach reach' : List String}

/-! ## Steps and how they end -/

/-- The steps of a part of a call that ends with a result, around which labels with the names
`reach` are in reach. A jump is the last step if it leaves the part, or if it is the last one that
the call may make. -/
structure Guided (J : Jump → Prop) (L : Leaf → Prop) (reach : List String)
    (steps : List CourseStep) (result : EStateM.Result Stop Machine Signal) : Prop where
  within : ∀ step ∈ steps, step.Within J L
  chain : steps.IsChain Follows
  last : ∀ j, steps.getLast? = some (.jump j) →
    (∃ t, result = .ok (.goto j.label.token) t ∧ (j.Lands ↔ j.name ∈ reach)) ∨
      j.Lands ∧ ∃ t, result = .error .unfinished t
  left : ∀ token t, result = .ok (.goto token) t →
    ∃ j, steps.getLast? = some (.jump j) ∧ j.label.token = token

namespace Guided

variable {steps steps' : List CourseStep} {result : EStateM.Result Stop Machine Signal}

/-- Nothing is done, and no jump leaves. -/
theorem nil (hresult : ∀ token t, result ≠ .ok (.goto token) t) :
    Guided J L reach [] result where
  within _ h := by cases h
  chain := .nil
  last _ h := by cases h
  left token t h := absurd h (hresult token t)

/-- Steps after others. If the first ones end with a jump, then its label comes next, or no steps
are left for jumps. -/
theorem append (hwithin : ∀ step ∈ steps, step.Within J L) (hchain : steps.IsChain Follows)
    (hjump : ∀ j, steps.getLast? = some (.jump j) → j.Lands ∧
      ((steps' = [] ∧ ∃ t, result = .error .unfinished t) ∨
        ∃ name, steps'.head? = some (.label name) ∧ name.token.text = j.name))
    (h : Guided J L reach steps' result) : Guided J L reach (steps ++ steps') result where
  within step hstep := (List.mem_append.mp hstep).elim (hwithin step) (h.within step)
  chain := by
    rw [List.isChain_append]
    refine ⟨hchain, h.chain, ?_⟩
    rintro step hstep next hnext j rfl
    obtain ⟨hlands, ⟨hnil, -⟩ | ⟨name, hname, htext⟩⟩ := hjump j hstep
    · rw [hnil] at hnext
      cases hnext
    · rw [hname] at hnext
      cases hnext
      exact ⟨hlands, name, rfl, htext⟩
  last j hj := by
    rw [List.getLast?_append] at hj
    cases hlast : steps'.getLast? with
    | some step =>
      rw [hlast, Option.some_or] at hj
      exact h.last j (hlast.trans hj)
    | none =>
      rw [hlast, Option.none_or] at hj
      obtain ⟨hlands, ⟨-, hresult⟩ | ⟨name, hname, -⟩⟩ := hjump j hj
      · exact .inr ⟨hlands, hresult⟩
      · rw [List.getLast?_eq_none_iff.mp hlast] at hname
        cases hname
  left token t hresult := by
    obtain ⟨j, hj, htoken⟩ := h.left token t hresult
    refine ⟨j, ?_, htoken⟩
    rw [List.getLast?_append, hj, Option.some_or]

/-- Where no jump leaves, it does not matter what is in reach outside. -/
theorem reach_of_stays (h : Guided J L reach steps result)
    (hresult : ∀ token t, result ≠ .ok (.goto token) t) : Guided J L reach' steps result where
  within := h.within
  chain := h.chain
  last j hj := by
    rcases h.last j hj with ⟨t, ht, -⟩ | hlands
    · exact absurd ht (hresult _ t)
    · exact .inr hlands
  left token t ht := absurd ht (hresult token t)

/-- If no jump leaves a part of a call, and the call goes on, then its last step is no jump. -/
theorem getLast?_ne_jump {signal : Signal} {t : Machine}
    (h : Guided J L reach steps (.ok signal t)) (hsignal : ∀ token, signal ≠ .goto token)
    (j : Jump) : steps.getLast? ≠ some (.jump j) := by
  intro hj
  rcases h.last j hj with ⟨u, hu, -⟩ | ⟨-, u, hu⟩
  · cases hu
    exact hsignal _ rfl
  · cases hu

/-- A jump that leaves a block because it is to none of its labels. -/
theorem reach_of_not_mem {targets : List String} {token : Token} {t : Machine}
    (h : Guided J L (targets ++ reach) steps (.ok (.goto token) t))
    (htoken : token.text ∉ targets) : Guided J L reach steps (.ok (.goto token) t) where
  within := h.within
  chain := h.chain
  last j hj := by
    refine (h.last j hj).imp_left ?_
    rintro ⟨u, hu, hlands⟩
    have hname : j.name ∉ targets := by
      cases hu
      exact htoken
    rw [List.mem_append, or_iff_right hname] at hlands
    exact ⟨u, hu, hlands⟩
  left := h.left

/-- A jump that lands in a block because it is to one of its labels. -/
theorem lands_of_mem {targets : List String} {token : Token} {t : Machine}
    (h : Guided J L (targets ++ reach) steps (.ok (.goto token) t)) (htoken : token.text ∈ targets)
    {j : Jump} (hj : steps.getLast? = some (.jump j)) : j.Lands ∧ j.label.token = token := by
  rcases h.last j hj with ⟨u, hu, hlands⟩ | ⟨-, u, hu⟩
  · cases hu
    exact ⟨hlands.mpr (List.mem_append_left _ htoken), rfl⟩
  · cases hu

end Guided

/-! ## Parts of calls -/

/-- Whether the steps of a part of a call are guided, wherever it begins. -/
def Guides (J : Jump → Prop) (L : Leaf → Prop) (reach : List String) (x : Course Signal) : Prop :=
  ∀ m, Guided J L reach (x.deeds m) (x.exec m)

/-- Whether a part of a call makes no jump and comes to no label. -/
def Calm {α : Type} (x : Course α) : Prop :=
  ∀ m, ∀ step ∈ x.deeds m, step.IsCalm

/-- Whether a part of a call begins at a label with the given name. -/
def Arrives (name : String) (x : Course Signal) : Prop :=
  ∀ m, ∃ leaf, (x.deeds m).head? = some (.label leaf) ∧ leaf.token.text = name

variable {α β : Type}

theorem calm_pure (a : α) : Calm (pure a : Course α) :=
  fun _ _ h => by cases h

theorem calm_begin {step : CourseStep} (hstep : step.IsCalm) (x : Run α) :
    Calm (begin step x) := by
  intro m next hnext
  rw [List.mem_singleton.mp hnext]
  exact hstep

theorem guides_pure {signal : Signal} (hsignal : ∀ token, signal ≠ .goto token) :
    Guides J L reach (pure signal) := by
  refine fun m => .nil fun token t h => ?_
  cases h
  exact hsignal token rfl

theorem guides_throw (stop : Stop) : Guides J L reach (throw stop : Course Signal) :=
  fun m => .nil fun token t h => by cases h

/-- What comes after a part without jumps decides. -/
theorem Calm.bind {x : Course α} {f : α → Course Signal} (hx : Calm x)
    (hf : ∀ a, Guides J L reach (f a)) : Guides J L reach (x >>= f) := by
  intro m
  have hwithin : ∀ step ∈ x.deeds m, step.Within J L := by
    intro step hstep
    have hcalm := hx m step hstep
    cases step with
    | instr _ | expr _ => trivial
    | jump _ | label _ => exact hcalm.elim
  have hjump : ∀ j, CourseStep.jump j ∉ x.deeds m := fun j hj => hx m _ hj
  have hchain : (x.deeds m).IsChain Follows := by
    refine (List.pairwise_of_forall_mem_list fun step hstep next _ => ?_).isChain
    rintro j rfl
    exact absurd hstep (hjump j)
  have happend {steps' : List CourseStep} {result : EStateM.Result Stop Machine Signal}
      (h : Guided J L reach steps' result) : Guided J L reach (x.deeds m ++ steps') result :=
    h.append hwithin hchain fun j hj => absurd (List.mem_of_getLast? hj) (hjump j)
  cases h : x.exec m with
  | ok a t =>
    rw [Traced.deeds_bind_of_ok f h, Traced.exec_bind_of_ok f h]
    exact happend (hf a t)
  | error stop t =>
    rw [Traced.deeds_bind_of_error f h, Traced.exec_bind_of_error f h]
    have hnil : Guided J L reach [] (.error stop t) := .nil nofun
    exact (x.deeds m).append_nil ▸ happend hnil

theorem Arrives.bind {name : String} {x : Course Signal} (hx : Arrives name x)
    (f : Signal → Course Signal) : Arrives name (x >>= f) := by
  intro m
  obtain ⟨leaf, hleaf, htext⟩ := hx m
  refine ⟨leaf, ?_, htext⟩
  cases h : x.exec m with
  | ok signal t => rw [Traced.deeds_bind_of_ok f h, List.head?_append, hleaf, Option.some_or]
  | error stop t => rw [Traced.deeds_bind_of_error f h, hleaf]

/-- A block that goes on at a label begins there, unless no steps are left for jumps. -/
theorem Arrives.jumping {name : String} {next : Course Signal} (hnext : Arrives name next)
    (resume : String → Option (Course Signal)) (fuel : Nat) (m : Machine) :
    ((Run.jumping resume fuel next).deeds m = [] ∧
        ∃ t, (Run.jumping resume fuel next).exec m = .error .unfinished t) ∨
      ∃ leaf, ((Run.jumping resume fuel next).deeds m).head? = some (.label leaf) ∧
        leaf.token.text = name := by
  cases fuel with
  | zero => exact .inl ⟨rfl, m, rfl⟩
  | succ fuel => exact .inr (hnext.bind _ m)

namespace Guides

variable {x : Course Signal} {f : Signal → Course Signal}

/-- What comes after a part of a call must hand on the jumps that leave it. -/
theorem bind (hx : Guides J L reach x)
    (hf : ∀ signal, (∀ token, signal ≠ .goto token) → Guides J L reach (f signal))
    (hgoto : ∀ token, f (.goto token) = pure (.goto token)) : Guides J L reach (x >>= f) := by
  intro m
  have hm := hx m
  cases h : x.exec m with
  | error stop t =>
    rw [Traced.deeds_bind_of_error f h, Traced.exec_bind_of_error f h, ← h]
    exact hm
  | ok signal t =>
    rw [Traced.deeds_bind_of_ok f h, Traced.exec_bind_of_ok f h]
    rw [h] at hm
    by_cases hsignal : ∃ token, signal = .goto token
    · obtain ⟨token, rfl⟩ := hsignal
      rw [hgoto, Traced.deeds_pure, List.append_nil]
      exact hm
    · have hstays : ∀ token, signal ≠ .goto token := fun token heq => hsignal ⟨token, heq⟩
      refine (hf signal hstays t).append hm.within hm.chain fun j hj => ?_
      exact absurd hj (hm.getLast?_ne_jump hstays j)

theorem inScope (hx : Guides J L reach x) : Guides J L reach (Run.inScope x) := by
  intro m
  have hm := hx (m.push m.current)
  rw [Run.inScope, Traced.deeds_between]
  simp only [Traced.between]
  cases h : x.exec (m.push m.current) with
  | ok signal t =>
    rw [h] at hm
    refine ⟨hm.within, hm.chain, fun j hj => ?_, fun token u hu => ?_⟩
    · obtain ⟨u, hu, hlands⟩ | ⟨-, u, hu⟩ := hm.last j hj
      · cases hu
        exact .inl ⟨_, rfl, hlands⟩
      · cases hu
    · cases hu
      exact hm.left token t rfl
  | error stop t =>
    rw [h] at hm
    refine ⟨hm.within, hm.chain, fun j hj => ?_, fun token u hu => by cases hu⟩
    obtain ⟨u, hu, -⟩ | ⟨hlands, u, hu⟩ := hm.last j hj
    · cases hu
    · cases hu
      exact .inr ⟨hlands, _, rfl⟩

theorem onward {signal : Signal} (hsignal : ∀ token, signal ≠ .goto token) {next : Course Signal}
    (hnext : Guides J L reach next) : Guides J L reach (Run.onward signal next) := by
  cases signal with
  | normal => exact hnext
  | _ => exact guides_pure hsignal

theorem turn {body next : Course Signal} (hbody : Guides J L reach body)
    (hnext : Guides J L reach next) : Guides J L reach (Run.turn body next) := by
  refine hbody.bind (fun signal hsignal => ?_) fun token => rfl
  cases signal with
  | normal | «continue» => exact hnext
  | «break» => exact guides_pure fun _ h => by cases h
  | _ => exact guides_pure hsignal

theorem loop {test : Course Bool} {body : Course Signal} {step : Course Unit} (htest : Calm test)
    (hbody : Guides J L reach body) (hstep : Calm step) (fuel : Nat) (bodyFirst : Bool) :
    Guides J L reach (Run.loop test body step fuel bodyFirst) := by
  induction fuel generalizing bodyFirst with
  | zero => exact guides_throw _
  | succ fuel ih =>
    have hfirst : Calm (if bodyFirst then pure true else test) := by
      cases bodyFirst with
      | false => exact htest
      | true => exact calm_pure true
    refine hfirst.bind fun goOn => ?_
    cases goOn with
    | false => exact guides_pure fun _ h => by cases h
    | true => exact hbody.turn (hstep.bind fun _ => ih false)

/-- Jumps to labels that are known to a block land there, and the other ones leave the block. -/
theorem jumping {targets : List String} {resume : String → Option (Course Signal)}
    {start : Course Signal}
    (hresume : ∀ name, ∀ next ∈ resume name,
      Guides J L (targets ++ reach) next ∧ Arrives name next)
    (htargets : ∀ name, (resume name).isSome ↔ name ∈ targets)
    (hstart : Guides J L (targets ++ reach) start) (fuel : Nat) :
    Guides J L reach (Run.jumping resume fuel start) := by
  induction fuel generalizing start with
  | zero => exact guides_throw _
  | succ fuel ih =>
    intro m
    have hm := hstart m
    rw [Run.jumping]
    cases h : start.exec m with
    | error stop t =>
      rw [Traced.deeds_bind_of_error _ h, Traced.exec_bind_of_error _ h]
      rw [h] at hm
      exact hm.reach_of_stays nofun
    | ok signal t =>
      rw [Traced.deeds_bind_of_ok _ h, Traced.exec_bind_of_ok _ h]
      rw [h] at hm
      cases signal with
      | goto token =>
        dsimp only
        cases hnext : resume token.text with
        | none =>
          have htoken : token.text ∉ targets := by
            rw [← htargets, hnext]
            exact Bool.false_ne_true
          dsimp only
          rw [Traced.deeds_pure, List.append_nil]
          exact hm.reach_of_not_mem htoken
        | some next =>
          -- the block goes on at the label, with one step less for jumps
          obtain ⟨hguides, harrives⟩ := hresume _ next hnext
          have htoken : token.text ∈ targets := by
            rw [← htargets, hnext]
            rfl
          refine (ih hguides t).append hm.within hm.chain fun j hj => ?_
          obtain ⟨hlands, rfl⟩ := hm.lands_of_mem htoken hj
          exact ⟨hlands, harrives.jumping resume fuel t⟩
      | _ =>
        have hstays : Guided J L reach (start.deeds m) (.ok _ t) :=
          hm.reach_of_stays fun _ _ h => by cases h
        dsimp only
        rw [Traced.deeds_pure, List.append_nil]
        exact hstays

end Guides

/-! ## Instructions -/

variable {ctx : Context}

/-- A jump leaves the instruction that makes it. -/
theorem guides_instr {i : Instr} (hJ : ∀ j ∈ i.jumps reach, J j) :
    Guides J L reach (instr ctx reach i) := by
  intro m
  refine ⟨fun step hstep => ?_, .singleton _, fun j hj => ?_, fun token t ht => ?_⟩
  · rw [List.mem_singleton.mp hstep]
    cases i with
    | goto label => exact hJ _ (List.mem_singleton_self _)
    | _ => trivial
  · cases i with
    | goto label =>
      cases hj
      exact .inl ⟨m, rfl, Iff.rfl⟩
    | _ => cases hj
  · have hends := Run.endsWith_of_instr ht
    cases i with
    | goto label => exact ⟨⟨label, reach⟩, rfl, hends⟩
    | _ => cases hends

theorem guides_instrs {is : List Instr} (hJ : ∀ i ∈ is, ∀ j ∈ i.jumps reach, J j) :
    Guides J L reach (instrs ctx reach is) := by
  induction is with
  | nil => exact guides_pure fun _ h => by cases h
  | cons i is ih =>
    obtain ⟨hi, hrest⟩ := List.forall_mem_cons.mp hJ
    exact (guides_instr hi).bind (fun signal hsignal => .onward hsignal (ih hrest)) fun _ => rfl

/-! ## Parts of statements -/

theorem calm_holds (cond : Expr) : Calm (holds ctx cond) :=
  calm_begin (by trivial) _

theorem calm_loopTest (cond : Option Instr) : Calm (loopTest ctx cond) := by
  cases cond with
  | none => exact calm_pure _
  | some i => exact calm_begin (by trivial) _

theorem calm_loopStep (step : Option Instr) : Calm (loopStep ctx step) := by
  cases step with
  | none => exact calm_pure _
  | some i => exact calm_begin (by trivial) _

theorem calm_loopStart (init : Option Instr) : Calm (loopStart ctx init) := by
  cases init with
  | none => exact calm_pure _
  | some i => exact calm_begin (by trivial) _

theorem calm_isChosen (selector : Value) (label : Option Expr) :
    Calm (isChosen ctx selector label) := by
  cases label with
  | none => exact calm_pure _
  | some label => exact calm_begin (by trivial) _

/-! ## Labels of blocks -/

theorem mem_targets_cons (name : String) (s : Stmt) (rest : List Stmt) :
    name ∈ Stmt.targets (s :: rest) ↔ Run.isLabel name s ∨ name ∈ Stmt.targets rest := by
  cases s <;> simp [Stmt.targets, Stmt.label?, Run.isLabel, eq_comm]

/-- The labels from which a block knows how to go on are those at its top level. -/
theorem isSome_resume (fuel : Nat) (reach : List String) (body : List Stmt) (name : String) :
    (resume ctx fuel reach body name).isSome ↔ name ∈ Stmt.targets body := by
  induction body with
  | nil => exact iff_of_false Bool.false_ne_true List.not_mem_nil
  | cons s rest ih =>
    rw [mem_targets_cons, ← ih, resume]
    cases resume ctx fuel reach rest name with
    | some next => exact iff_of_true rfl (.inr rfl)
    | none =>
      dsimp only
      split
      · rename_i hlabel
        exact iff_of_true rfl (.inl hlabel)
      · rename_i hlabel
        exact iff_of_false Bool.false_ne_true (not_or.mpr ⟨hlabel, Bool.false_ne_true⟩)

theorem guides_label (name : Leaf) (fuel : Nat) (hL : L name) :
    Guides J L reach (stmt ctx fuel reach (.label name)) := by
  intro m
  refine ⟨fun step hstep => ?_, .singleton _, fun j hj => ?_, fun token t h => ?_⟩
  · rw [List.mem_singleton.mp hstep]
    exact hL
  · cases hj
  · cases h

/-! ## Statements -/

/-- A block keeps the jumps to the labels at its top level. -/
theorem guides_block {fuel : Nat} {body : List Stmt}
    (hstmts : Guides J L (Stmt.targets body ++ reach)
      (stmts ctx fuel (Stmt.targets body ++ reach) body))
    (hresume : ∀ name, ∀ next ∈ resume ctx fuel (Stmt.targets body ++ reach) body name,
      Guides J L (Stmt.targets body ++ reach) next ∧ Arrives name next) :
    Guides J L reach (Run.inScope (Run.jumping
      (resume ctx fuel (Stmt.targets body ++ reach) body) fuel
      (stmts ctx fuel (Stmt.targets body ++ reach) body))) :=
  Guides.inScope (Guides.jumping hresume (isSome_resume fuel _ body) hstmts fuel)

mutual

/-- The jumps of a statement land where they are in reach, and leave it otherwise. -/
theorem guides_stmt (fuel : Nat) (reach : List String) (s : Stmt) (hJ : ∀ j ∈ s.jumps reach, J j)
    (hL : ∀ l ∈ s.labels, L l) : Guides J L reach (stmt ctx fuel reach s) := by
  cases s with
  | block body =>
    rw [stmt]
    exact guides_block (guides_stmts fuel _ body hJ hL) (guides_resume fuel _ body hJ hL)
  | line is =>
    rw [stmt]
    refine guides_instrs fun i hi j hj => hJ j ?_
    exact List.mem_flatMap_of_mem hi hj
  | label name => exact guides_label name fuel (hL name (List.mem_singleton_self _))
  | branches conditional otherwise =>
    rw [Stmt.jumps, List.forall_mem_append] at hJ
    rw [Stmt.labels, List.forall_mem_append] at hL
    rw [stmt]
    refine guides_branches fuel reach ?_ conditional hJ.1 hL.1
    cases otherwise with
    | none => exact guides_pure fun _ h => by cases h
    | some body => exact guides_stmt fuel reach body hJ.2 hL.2
  | «while» cond body =>
    rw [stmt]
    exact (Guides.loop (calm_holds cond) (guides_stmt fuel reach body hJ hL) (calm_pure _) fuel
      _).inScope
  | doWhile cond body =>
    rw [stmt]
    exact (Guides.loop (calm_holds cond) (guides_stmt fuel reach body hJ hL) (calm_pure _) fuel
      _).inScope
  | «for» init cond step body =>
    rw [stmt]
    refine Guides.inScope ((calm_loopStart init).bind fun _ => Guides.inScope ?_)
    exact .loop (calm_loopTest cond) (guides_stmt fuel reach body hJ hL) (calm_loopStep step) fuel _
  | «switch» selector parts =>
    rw [stmt]
    exact (calm_begin (by trivial) _).bind fun v => guides_cases fuel reach v parts hJ hL

theorem guides_stmts (fuel : Nat) (reach : List String) (body : List Stmt)
    (hJ : ∀ j ∈ Stmt.jumps.jumpsAll reach body, J j)
    (hL : ∀ l ∈ Stmt.labels.labelsAll body, L l) :
    Guides J L reach (stmts ctx fuel reach body) := by
  cases body with
  | nil => exact guides_pure fun _ h => by cases h
  | cons s rest =>
    rw [Stmt.jumps.jumpsAll, List.forall_mem_append] at hJ
    rw [Stmt.labels.labelsAll, List.forall_mem_append] at hL
    have hrest := guides_stmts fuel reach rest hJ.2 hL.2
    rw [stmts]
    exact (guides_stmt fuel reach s hJ.1 hL.1).bind
      (fun signal hsignal => .onward hsignal hrest) fun _ => rfl

theorem guides_resume (fuel : Nat) (reach : List String) (body : List Stmt)
    (hJ : ∀ j ∈ Stmt.jumps.jumpsAll reach body, J j)
    (hL : ∀ l ∈ Stmt.labels.labelsAll body, L l) :
    ∀ name, ∀ next ∈ resume ctx fuel reach body name,
      Guides J L reach next ∧ Arrives name next := by
  cases body with
  | nil => exact fun name next hnext => by cases hnext
  | cons s rest =>
    rw [Stmt.jumps.jumpsAll, List.forall_mem_append] at hJ
    rw [Stmt.labels.labelsAll, List.forall_mem_append] at hL
    intro name next hnext
    rw [resume] at hnext
    cases hrest : resume ctx fuel reach rest name with
    | some later =>
      rw [hrest] at hnext
      cases hnext
      exact guides_resume fuel reach rest hJ.2 hL.2 name _ hrest
    | none =>
      rw [hrest] at hnext
      dsimp only at hnext
      split at hnext
      · rename_i hlabel
        cases hnext
        have hstmts := guides_stmts fuel reach rest hJ.2 hL.2
        refine ⟨(guides_stmt fuel reach s hJ.1 hL.1).bind
          (fun signal hsignal => .onward hsignal hstmts) fun _ => rfl, ?_⟩
        cases s with
        | label leaf => exact Arrives.bind (fun m => ⟨leaf, rfl, of_decide_eq_true hlabel⟩) _
        | _ => cases hlabel
      · cases hnext

theorem guides_branches (fuel : Nat) (reach : List String) {otherwise : Course Signal}
    (hotherwise : Guides J L reach otherwise) (conditional : List (Expr × Stmt))
    (hJ : ∀ j ∈ Stmt.jumps.jumpsBranches reach conditional, J j)
    (hL : ∀ l ∈ Stmt.labels.labelsBranches conditional, L l) :
    Guides J L reach (branches ctx fuel reach otherwise conditional) := by
  cases conditional with
  | nil => exact hotherwise
  | cons branch rest =>
    obtain ⟨cond, body⟩ := branch
    rw [Stmt.jumps.jumpsBranches, List.forall_mem_append] at hJ
    rw [Stmt.labels.labelsBranches, List.forall_mem_append] at hL
    rw [branches]
    refine (calm_holds cond).bind fun b => ?_
    split
    · exact guides_stmt fuel reach body hJ.1 hL.1
    · exact guides_branches fuel reach hotherwise rest hJ.2 hL.2

theorem guides_cases (fuel : Nat) (reach : List String) (selector : Value)
    (parts : List (Option Expr × List Stmt))
    (hJ : ∀ j ∈ Stmt.jumps.jumpsCases reach parts, J j)
    (hL : ∀ l ∈ Stmt.labels.labelsCases parts, L l) :
    Guides J L reach (cases ctx fuel reach selector parts) := by
  cases parts with
  | nil => exact guides_pure fun _ h => by cases h
  | cons part rest =>
    obtain ⟨label, body⟩ := part
    rw [Stmt.jumps.jumpsCases, List.forall_mem_append] at hJ
    rw [Stmt.labels.labelsCases, List.forall_mem_append] at hL
    have hbody := guides_block (guides_stmts fuel _ body hJ.1 hL.1)
      (guides_resume fuel _ body hJ.1 hL.1)
    rw [cases]
    refine (calm_isChosen selector label).bind fun b => ?_
    split
    · refine hbody.bind (fun signal hsignal => guides_pure ?_) fun _ => rfl
      cases signal with
      | «break» => exact fun _ h => by cases h
      | _ => exact hsignal
    · exact guides_cases fuel reach selector rest hJ.2 hL.2

end

/-- No label is in reach around the body of a function. -/
theorem guides_call (known : Nat → Option CType) (fuel : Nat) (f : FunctionDef)
    (args : List Value) : Guides (· ∈ f.jumps) (· ∈ f.labels) [] (call known fuel f args) := by
  have hparams : Calm (silent (Run.bindParams known f.params args)) :=
    fun _ _ h => by cases h
  refine hparams.bind fun _ => ?_
  exact guides_stmt fuel [] (.block f.body) (fun _ => id) fun _ => id

end Course

end MiniC
