import MiniC.Proofs.Names.Evaluated

set_option autoImplicit false

/-! # Statements of linked programs

A statement in a call leaves the invariant in place, with the meanings of what it declares, however
it ends. A scope hides what was declared in it; where the run opens none although the analysis does,
the declarations are forgotten, and stay behind as variables that the judgement does not know. -/

namespace MiniC

/-! ## How statements may end -/

/-- Whether a statement may end with a signal where the given jumps are allowed. -/
def Setting.Lets (S : Setting) (jumps : Jumps) : Signal → Prop
  | .normal => True
  | .break => jumps.break
  | .continue => jumps.continue
  | .return _ => True
  | .goto _ => S.hasGotos

namespace Setting.Placed

variable {S : Setting} {direct direct' inner inner' bare bare' Ω : List Leaf}

/-- What is declared in a part of what is placed is placed. -/
theorem sub (h : S.Placed direct inner bare Ω) (hdirect : ∀ l ∈ direct', l ∈ direct)
    (hinner : inner'.Sublist inner) (hbare : ∀ l ∈ bare', l ∈ bare) :
    S.Placed direct' inner' bare' Ω where
  direct l hl := h.direct l (hdirect l hl)
  nodup := h.nodup.sublist hinner
  apart l hl := h.apart l (hinner.subset hl)
  bare l hl := h.bare l (hbare l hl)

/-- In a scope that is opened, what is declared there may be found. -/
theorem enter (h : S.Placed direct (direct' ++ inner) bare Ω) :
    S.Placed direct' inner bare (direct' ++ Ω) where
  direct l hl := List.mem_append_left _ hl
  nodup := h.nodup.of_append_right
  apart l hl hmem := by
    rcases List.mem_append.mp hmem with hmem | hmem
    · exact (List.nodup_append.mp h.nodup).2.2 l hmem l hl rfl
    · exact h.apart l (List.mem_append_right _ hl) hmem
  bare := h.bare

/-- In the scope of a loop, what its body declares without a block may be found. -/
theorem body (h : S.Placed direct (direct' ++ inner) (direct' ++ bare) Ω) :
    S.Placed direct' inner bare (direct' ++ Ω) :=
  h.enter.sub (fun _ => id) (List.Sublist.refl _) fun _ hl => List.mem_append_right _ hl

end Setting.Placed

namespace Run

variable {α β : Type} {S : Setting} {G Γ Δ : Meanings} {Ω Ω' : List Leaf}
  {direct direct' declared declared' leaves leaves' : List Leaf} {jumps : Jumps}

/-- A part of a run in a call, after which names mean what they mean after declarations in `direct`:
after those in `declared` if it ends normally. All that it declares is in `leaves`. -/
def Executes (S : Setting) (G Γ : Meanings) (Ω direct declared leaves : List Leaf) (jumps : Jumps)
    (x : Run Signal) : Prop :=
  ∀ h m, h.calls ≠ [] → S.Inv G Γ Ω h m → Ensures S x h m fun signal h' t =>
    S.Lets jumps signal ∧ History.Adds leaves h h' ∧
      ∃ ds, (∀ d ∈ ds, d ∈ direct) ∧ (signal = .normal → ds = declared) ∧
        S.Inv G (Γ.declareAll ds) Ω h' t

/-- A part of a run in a call, after which names may mean anything that can be found in `Ω`. -/
def Ends (S : Setting) (G Γ : Meanings) (Ω leaves : List Leaf) (jumps : Jumps)
    (x : Run Signal) : Prop :=
  ∀ h m, h.calls ≠ [] → S.Inv G Γ Ω h m → Ensures S x h m fun signal h' t =>
    S.Lets jumps signal ∧ History.Adds leaves h h' ∧ ∃ Δ, S.Inv G Δ Ω h' t

theorem Executes.ends {x : Run Signal} (hx : Executes S G Γ Ω direct declared leaves jumps x) :
    Ends S G Γ Ω leaves jumps x := by
  intro h m hcalls hm
  refine (hx h m hcalls hm).imp ?_
  rintro signal h' t ⟨hlets, hadds, ds, -, -, ht⟩
  exact ⟨hlets, hadds, _, ht⟩

theorem Ends.mono {x : Run Signal} (hx : Ends S G Γ Ω leaves jumps x)
    (hleaves : ∀ l ∈ leaves, l ∈ leaves') : Ends S G Γ Ω leaves' jumps x := by
  intro h m hcalls hm
  refine (hx h m hcalls hm).imp ?_
  rintro signal h' t ⟨hlets, hadds, ht⟩
  exact ⟨hlets, hadds.mono hleaves, ht⟩

theorem Executes.mono {x : Run Signal} (hx : Executes S G Γ Ω direct declared leaves jumps x)
    (hdirect : ∀ l ∈ direct, l ∈ direct') (hleaves : ∀ l ∈ leaves, l ∈ leaves') :
    Executes S G Γ Ω direct' declared leaves' jumps x := by
  intro h m hcalls hm
  refine (hx h m hcalls hm).imp ?_
  rintro signal h' t ⟨hlets, hadds, ds, hds, hnormal, ht⟩
  exact ⟨hlets, hadds.mono hleaves, ds, fun d hd => hdirect d (hds d hd), hnormal, ht⟩

/-- What is declared without a block around it is forgotten. -/
theorem Executes.forget {x : Run Signal} (hx : Executes S G Γ Ω direct declared leaves jumps x)
    (hbare : ∀ l ∈ direct, l ∈ S.bare) : Executes S G Γ Ω [] [] leaves jumps x := by
  intro h m hcalls hm
  refine (hx h m hcalls hm).imp ?_
  rintro signal h' t ⟨hlets, hadds, ds, hds, -, ht⟩
  have hΓ := ht.forget (fun d hd => hbare d (hds d hd)) hm.functions
  exact ⟨hlets, hadds, [], List.forall_mem_nil _, fun _ => rfl, hΓ⟩

/-- A part of a run that ends with a signal at once. -/
theorem executes_pure {signal : Signal} (hlets : S.Lets jumps signal) :
    Executes S G Γ Ω [] [] leaves jumps (pure signal) :=
  fun h _ _ hm => .pure ⟨hlets, .refl _ h, [], List.forall_mem_nil _, fun _ => rfl, hm⟩

/-- Steps that make no variables, and what comes after them. -/
theorem Keeps.executes {x : Run α} {f : α → Run Signal} (hx : Keeps S G Γ Ω x)
    (hf : ∀ a, Executes S G Γ Ω direct declared leaves jumps (f a)) :
    Executes S G Γ Ω direct declared leaves jumps (x >>= f) :=
  fun h _ hcalls hm => hx.bind_ensures hm fun a t ht => hf a h t hcalls ht

/-- One part of a run after another one, unless the first ends with a jump. -/
theorem Executes.onward {x next : Run Signal}
    (hx : Executes S G Γ Ω direct declared leaves jumps x)
    (hnext : Executes S G (Γ.declareAll declared) Ω direct' declared' leaves' jumps next) :
    Executes S G Γ Ω (direct ++ direct') (declared ++ declared') (leaves ++ leaves') jumps (do
      Run.onward (← x) next) := by
  intro h m hcalls hm
  refine (hx h m hcalls hm).bind ?_
  rintro signal h' t ⟨hlets, hadds, ds, hds, hnormal, ht⟩
  have hadds' := hadds.mono fun l hl => List.mem_append_left leaves' hl
  by_cases hsignal : signal = .normal
  · subst hsignal
    obtain rfl := hnormal rfl
    refine (hnext h' t (fun h₀ => hcalls (hadds.level.mp h₀)) ht).imp ?_
    rintro signal h'' u ⟨hlets', hadds'', ds', hds', hnormal', hu⟩
    refine ⟨hlets', hadds'.trans (hadds''.mono fun l hl => List.mem_append_right leaves hl), ?_⟩
    rw [← Meanings.declareAll_append] at hu
    refine ⟨ds ++ ds', ?_, fun hs => by rw [hnormal' hs], hu⟩
    intro d hd
    rcases List.mem_append.mp hd with hd | hd
    · exact List.mem_append_left _ (hds d hd)
    · exact List.mem_append_right _ (hds' d hd)
  · have honward : Run.onward signal next = pure signal := by
      cases signal with
      | normal => exact absurd rfl hsignal
      | _ => rfl
    rw [honward]
    refine .pure ⟨hlets, hadds', ds, fun d hd => List.mem_append_left _ (hds d hd), ?_, ht⟩
    exact fun hs => absurd hs hsignal

/-- A part of a run in a scope of its own. -/
theorem Ends.inScope {x : Run Signal} (hbracketed : Bracketed x)
    (hx : Ends S G Γ Ω' leaves jumps x) (hsub : ∀ l ∈ Ω, l ∈ Ω')
    (hapart : ∀ l ∈ leaves, l ∉ Ω) : Executes S G Γ Ω [] [] leaves jumps (inScope x) := by
  intro h m hcalls hm
  have hbody := hx h (m.push m.current) hcalls (hm.push hcalls hsub)
  refine (ensures_inScope hbracketed hm hapart hbody).imp ?_
  rintro signal h' t ⟨hlets, hadds, ht⟩
  exact ⟨hlets, hadds, [], List.forall_mem_nil _, fun _ => rfl, ht⟩

/-! ## Loops and jumps -/

/-- One turn of a loop, and what comes after it unless the loop is left. -/
theorem executes_turn {body next : Run Signal} (hbody : Executes S G Γ Ω [] [] leaves .loop body)
    (hnext : Executes S G Γ Ω [] [] leaves jumps next) :
    Executes S G Γ Ω [] [] leaves jumps (turn body next) := by
  intro h m hcalls hm
  refine (hbody h m hcalls hm).bind ?_
  rintro signal h' t ⟨hlets, hadds, ds, hds, -, ht⟩
  obtain rfl : ds = [] := List.eq_nil_of_subset_nil hds
  have hpure : ∀ signal, S.Lets jumps signal → Ensures S (pure signal) h' t
      fun signal h'' u => S.Lets jumps signal ∧ History.Adds leaves h h'' ∧
        ∃ ds, (∀ d ∈ ds, d ∈ ([] : List Leaf)) ∧ (signal = .normal → ds = []) ∧
          S.Inv G (Γ.declareAll ds) Ω h'' u :=
    fun _ hlets => .pure ⟨hlets, hadds, [], List.forall_mem_nil _, fun _ => rfl, ht⟩
  cases signal with
  | normal | «continue» =>
    refine (hnext h' t (fun h₀ => hcalls (hadds.level.mp h₀)) ht).imp ?_
    rintro signal h'' u ⟨hlets, hadds', hu⟩
    exact ⟨hlets, hadds.trans hadds', hu⟩
  | «break» => exact hpure .normal trivial
  | «return» v => exact hpure (.return v) trivial
  | goto label => exact hpure (.goto label) hlets

/-- A loop repeats its body where names mean the same in every turn. -/
theorem executes_loop {test : Run Bool} {body : Run Signal} {step : Run Unit}
    (htest : Keeps S G Γ Ω test) (hbody : Executes S G Γ Ω [] [] leaves .loop body)
    (hstep : Keeps S G Γ Ω step) (fuel : Nat) (bodyFirst : Bool) :
    Executes S G Γ Ω [] [] leaves jumps (loop test body step fuel bodyFirst) := by
  induction fuel generalizing bodyFirst with
  | zero => exact fun _ _ _ _ => .stop (.inl rfl)
  | succ fuel ih =>
    have hturn : ∀ b : Bool, Executes S G Γ Ω [] [] leaves jumps (if b then turn body do
        step
        loop test body step fuel false
      else pure .normal) := by
      intro b
      cases b with
      | false => exact executes_pure trivial
      | true => exact executes_turn hbody (hstep.executes fun _ => ih false)
    rw [loop]
    split
    · exact Keeps.executes (keeps_owning.pure true) hturn
    · exact htest.executes hturn

/-- Jumps to labels go on where names may mean anything. -/
theorem ends_jumping {resume : String → Option (Run Signal)} {start : Run Signal}
    (hresume : ∀ name next, resume name = some next →
      ∃ Δ : Meanings, Δ.FunctionsIn G ∧ Ends S G Δ Ω leaves jumps next)
    (hstart : Ends S G Γ Ω leaves jumps start) (fuel : Nat) :
    Ends S G Γ Ω leaves jumps (jumping resume fuel start) := by
  induction fuel generalizing Γ start with
  | zero => exact fun _ _ _ _ => .stop (.inl rfl)
  | succ fuel ih =>
    intro h m hcalls hm
    refine (hstart h m hcalls hm).bind ?_
    rintro signal h' t ⟨hlets, hadds, Δ, ht⟩
    cases signal with
    | goto label =>
      dsimp only
      split
      · exact .pure ⟨hlets, hadds, Δ, ht⟩
      · rename_i next hnext
        obtain ⟨Δ', hΔ', hends⟩ := hresume _ next hnext
        refine (ih hends h' t (fun h₀ => hcalls (hadds.level.mp h₀)) (ht.jump hlets hΔ')).imp ?_
        rintro signal h'' u ⟨hlets', hadds', hu⟩
        exact ⟨hlets', hadds.trans hadds', hu⟩
    | _ => exact .pure ⟨hlets, hadds, Δ, ht⟩

/-- A switch ends normally where its case ends with a jump out of it. -/
theorem Executes.afterCase {x : Run Signal}
    (hx : Executes S G Γ Ω [] [] leaves jumps.inSwitch x) :
    Executes S G Γ Ω [] [] leaves jumps (do return Run.afterCase (← x)) := by
  intro h m hcalls hm
  refine (hx h m hcalls hm).bind ?_
  rintro signal h' t ⟨hlets, hadds, ds, hds, -, ht⟩
  obtain rfl : ds = [] := List.eq_nil_of_subset_nil hds
  have hlets' : S.Lets jumps (Run.afterCase signal) := by
    cases signal with
    | normal | «break» | «return» => trivial
    | «continue» => exact hlets
    | goto label => exact hlets
  exact .pure ⟨hlets', hadds, [], List.forall_mem_nil _, fun _ => rfl, ht⟩

/-! ## Instructions -/

variable {ctx : Context}

theorem ensures_bareInstr (hctx : Callable S G ctx) (i : Instr)
    (hi : i.Linked S.toLinkage Γ jumps) (hΩ : ∀ l ∈ i.declared, l ∈ Ω) {h : History} {m : Machine}
    (hcalls : h.calls ≠ []) (hm : S.Inv G Γ Ω h m) :
    Ensures S (bareInstr ctx i) h m fun signal h' t =>
      S.Lets jumps signal ∧ History.Adds i.declared h h' ∧
        S.Inv G (Γ.declareAll i.declared) Ω h' t := by
  have hvalue : ∀ {β : Type} {x : Run β} {f : β → Signal}, Keeps S G Γ Ω x →
      (∀ a, S.Lets jumps (f a)) → Ensures S (do return f (← x)) h m fun signal h' t =>
        S.Lets jumps signal ∧ History.Adds [] h h' ∧ S.Inv G Γ Ω h' t :=
    fun hx hf => hx.bind_ensures hm fun a t ht => .pure ⟨hf a, .refl _ h, ht⟩
  cases i with
  | expr e =>
    unfold bareInstr
    split
    · rename_i callee args heq
      cases heq
      refine hvalue (f := fun _ => .normal) ?_ fun _ => trivial
      refine keeps_invoke hctx hi.1 ?_ (ensures_evalAll hctx args hi.2)
      cases args with
      | nil => exact fun x hx => by cases hx
      | cons e rest =>
        rintro x ⟨⟩
        exact keeps_eval hctx e hi.2.1
    · rename_i e' _ heq
      cases heq
      exact hvalue (f := fun _ => .normal) (keeps_eval hctx _ hi) fun _ => trivial
    all_goals rename_i heq; cases heq
  | declare d =>
    have hnames : ∀ d' ∈ d.all, d'.name ∈ Ω := fun d' hd' => hΩ _ (List.mem_map_of_mem hd')
    refine (ensures_declarators hctx d.all hi hnames hcalls hm).bind ?_
    rintro _ h' t ⟨hadds, ht⟩
    exact .pure ⟨trivial, hadds, ht⟩
  | «break» | «continue» | goto => exact .pure ⟨hi, .refl _ h, hm⟩
  | «return» value =>
    cases value with
    | none => exact .pure ⟨trivial, .refl _ h, hm⟩
    | some e => exact hvalue (keeps_eval hctx e (hi e rfl)) fun _ => trivial

/-- What an instruction declares is declared when it ends. -/
theorem ensures_instr (hctx : Callable S G ctx) (i : Instr) (hi : i.Linked S.toLinkage Γ jumps)
    (hΩ : ∀ l ∈ i.declared, l ∈ Ω) {h : History} {m : Machine} (hcalls : h.calls ≠ [])
    (hm : S.Inv G Γ Ω h m) :
    Ensures S (instr ctx i) h m fun signal h' t =>
      S.Lets jumps signal ∧ History.Adds i.declared h h' ∧
        S.Inv G (Γ.declareAll i.declared) Ω h' t :=
  (ensures_bareInstr hctx i hi hΩ hcalls hm).located _

theorem executes_instrs (hctx : Callable S G ctx) (is : List Instr)
    (his : Instr.AllLinked S.toLinkage Γ jumps is) (hΩ : ∀ l ∈ is.flatMap Instr.declared, l ∈ Ω) :
    Executes S G Γ Ω (is.flatMap Instr.declared) (is.flatMap Instr.declared)
      (is.flatMap Instr.declared) jumps (instrs ctx is) := by
  induction is generalizing Γ with
  | nil => exact executes_pure trivial
  | cons i rest ih =>
    rw [List.flatMap_cons] at hΩ ⊢
    refine Executes.onward (fun h m hcalls hm => ?_)
      (ih his.2 fun l hl => hΩ l (List.mem_append_right _ hl))
    have hi := ensures_instr hctx i his.1 (fun l hl => hΩ l (List.mem_append_left _ hl)) hcalls hm
    refine hi.imp ?_
    rintro signal h' t ⟨hlets, hadds, ht⟩
    exact ⟨hlets, hadds, i.declared, fun _ => id, fun _ => rfl, ht⟩

/-! ## Parts of statements -/

theorem keeps_instrValue (hctx : Callable S G ctx) {i : Instr}
    (hi : i.ValueLinked S.toLinkage Γ) : Keeps S G Γ Ω (instrValue ctx i) := by
  have hP : Owning (Keeps S G Γ Ω) := keeps_owning
  cases i with
  | expr e => exact keeps_eval hctx e (hi e rfl)
  | _ => exact hP.stop rfl nofun

theorem keeps_truth (hctx : Callable S G ctx) {cond : Expr} (hcond : cond.Linked S.toLinkage Γ) :
    Keeps S G Γ Ω (do truth (← eval ctx cond)) := by
  have hP : Owning (Keeps S G Γ Ω) := keeps_owning
  exact hP.bind (keeps_eval hctx cond hcond) fun v => hP.truth v

theorem keeps_loopTest (hctx : Callable S G ctx) {cond : Option Instr}
    (hcond : ∀ i ∈ cond, i.ValueLinked S.toLinkage Γ) : Keeps S G Γ Ω (loopTest ctx cond) := by
  have hP : Owning (Keeps S G Γ Ω) := keeps_owning
  cases cond with
  | none => exact hP.pure true
  | some i => exact hP.bind (keeps_instrValue hctx (hcond i rfl)) fun v => hP.truth v

theorem keeps_loopStep (hctx : Callable S G ctx) {step : Option Instr}
    (hstep : ∀ i ∈ step, i.ValueLinked S.toLinkage Γ) : Keeps S G Γ Ω (loopStep ctx step) := by
  have hP : Owning (Keeps S G Γ Ω) := keeps_owning
  cases step with
  | none => exact hP.pure ()
  | some i => exact hP.bind (keeps_instrValue hctx (hstep i rfl)) fun _ => hP.pure ()

theorem keeps_isChosen (hctx : Callable S G ctx) (selector : Value) {label : Option Expr}
    (hlabel : ∀ e ∈ label, e.Linked S.toLinkage Γ) :
    Keeps S G Γ Ω (isChosen ctx selector label) := by
  have hP : Owning (Keeps S G Γ Ω) := keeps_owning
  cases label with
  | none => exact hP.pure true
  | some e =>
    refine hP.bind (keeps_eval hctx e (hlabel e rfl)) fun v => ?_
    exact hP.lift (Value.linkageFree_compare .eq selector v)

/-- The initial instruction of a loop, and the rest of the loop in the same scope. -/
theorem ends_loopStart (hctx : Callable S G ctx) {init : Option Instr}
    (hinit : ∀ i ∈ init, i.Linked S.toLinkage Γ .loop)
    (hΩ : ∀ l ∈ init.toList.flatMap Instr.declared, l ∈ Ω) {next : Run Signal}
    (hnext : Ends S G (Γ.declareAll (init.toList.flatMap Instr.declared)) Ω leaves jumps next) :
    Ends S G Γ Ω (init.toList.flatMap Instr.declared ++ leaves) jumps (do
      loopStart ctx init
      next) := by
  intro h m hcalls hm
  have hstart : Ensures S (loopStart ctx init) h m fun _ h' t =>
      History.Adds (init.toList.flatMap Instr.declared) h h' ∧
        S.Inv G (Γ.declareAll (init.toList.flatMap Instr.declared)) Ω h' t := by
    cases init with
    | none => exact .pure ⟨.refl _ h, hm⟩
    | some i =>
      rw [Option.toList_some, List.flatMap_singleton] at hΩ ⊢
      refine (ensures_instr hctx i (hinit i rfl) hΩ hcalls hm).bind ?_
      rintro _ h' t ⟨-, hadds, ht⟩
      exact .pure ⟨hadds, ht⟩
  refine hstart.bind ?_
  rintro _ h' t ⟨hadds, ht⟩
  refine (hnext h' t (fun h₀ => hcalls (hadds.level.mp h₀)) ht).imp ?_
  rintro signal h'' u ⟨hlets, hadds', hu⟩
  refine ⟨hlets, ?_, hu⟩
  exact (hadds.mono fun l hl => List.mem_append_left _ hl).trans
    (hadds'.mono fun l hl => List.mem_append_right _ hl)

/-- Statements in a scope of their own, with the jumps to labels among them. -/
theorem executes_block {fuel : Nat} {body : List Stmt}
    (hbracketed : Bracketed (jumping (resume ctx fuel body) fuel (stmts ctx fuel body)))
    (hstmts : Executes S G Γ Ω' direct declared (direct ++ leaves) jumps (stmts ctx fuel body))
    (hresume : Γ.FunctionsIn G → ∀ name next, resume ctx fuel body name = some next →
      ∃ Δ : Meanings, Δ.FunctionsIn G ∧ Ends S G Δ Ω' (direct ++ leaves) jumps next)
    (hsub : ∀ l ∈ Ω, l ∈ Ω') (hapart : ∀ l ∈ direct ++ leaves, l ∉ Ω) :
    Executes S G Γ Ω [] [] (direct ++ leaves) jumps
      (inScope (jumping (resume ctx fuel body) fuel (stmts ctx fuel body))) := by
  intro h m hcalls hm
  have hends := ends_jumping (hresume hm.functions) hstmts.ends fuel
  exact hends.inScope hbracketed hsub hapart h m hcalls hm

/-- A loop in a scope of its own. What its body declares without a block is forgotten after each
turn, although the run keeps it for the other turns. -/
theorem executes_scopedLoop {test : Run Bool} {body : Run Signal} {step : Run Unit}
    {inner bare : List Leaf} {fuel : Nat} {bodyFirst : Bool}
    (hbracketed : Bracketed (loop test body step fuel bodyFirst))
    (hplaced : S.Placed direct' (direct ++ inner) (direct ++ bare) Ω)
    (htest : Keeps S G Γ (direct ++ Ω) test) (hstep : Keeps S G Γ (direct ++ Ω) step)
    (hbody : Executes S G Γ (direct ++ Ω) direct declared (direct ++ inner) .loop body) :
    Executes S G Γ Ω [] [] (direct ++ inner) jumps
      (inScope (loop test body step fuel bodyFirst)) := by
  have hforget := hbody.forget fun l hl => hplaced.bare l (List.mem_append_left _ hl)
  have hloop : Executes S G Γ (direct ++ Ω) [] [] (direct ++ inner) jumps _ :=
    executes_loop htest hforget hstep fuel bodyFirst
  exact hloop.ends.inScope hbracketed (fun l hl => List.mem_append_right _ hl) hplaced.apart

/-! ## Statements -/

mutual

/-- A linked statement declares what the analysis says that it does if it ends normally. -/
theorem executes_stmt {Γ : Meanings} {Ω : List Leaf} {jumps : Jumps}
    (hb : ComposedIn @Bracketed ctx) (hctx : Callable S G ctx) (fuel : Nat) (s : Stmt)
    (hs : s.Linked S.toLinkage Γ jumps)
    (hplaced : S.Placed s.direct s.inner s.bare Ω) :
    Executes S G Γ Ω s.direct s.declared (s.direct ++ s.inner) jumps (stmt ctx fuel s) := by
  cases s with
  | block body =>
    rw [stmt]
    have hblock := executes_block (hb.jumping (hb.resume fuel body) (hb.stmts fuel body) fuel)
      (executes_stmts hb hctx fuel body hs hplaced.enter)
      (ends_resume hb hctx fuel body hs hplaced.enter) (fun l hl => List.mem_append_right _ hl)
      hplaced.apart
    exact hblock
  | line is =>
    rw [stmt]
    refine (executes_instrs hctx is hs hplaced.direct).mono (fun _ => id) fun l hl => ?_
    exact List.mem_append_left _ hl
  | label name => exact executes_pure trivial
  | branches conditional otherwise =>
    rw [stmt]
    -- The run opens no scope for the body of `else`: what is declared there stays behind,
    -- forgotten.
    have hother : Executes S G Γ Ω [] []
        (Stmt.direct.directElse otherwise ++ Stmt.inner.innerElse otherwise) jumps
        (otherBranch ctx fuel otherwise) := by
      cases otherwise with
      | none => exact executes_pure trivial
      | some body =>
        have hbody := executes_stmt hb hctx fuel body hs.2 (hplaced.sub
          (fun l hl => List.mem_append_right _ hl) (List.sublist_append_right _ _)
          fun l hl => List.mem_append_right _ (List.mem_append_right _ hl))
        exact hbody.forget fun l hl =>
          hplaced.bare l (List.mem_append_right _ (List.mem_append_left _ hl))
    have hbranches := executes_branches hb hctx fuel hother conditional hs.1 (hplaced.sub
      (fun l hl => List.mem_append_left _ hl) (List.sublist_append_left _ _)
      fun l hl => List.mem_append_left _ hl)
    refine hbranches.mono (List.forall_mem_nil _) fun l hl => ?_
    simp only [Stmt.direct, Stmt.inner, List.mem_append] at hl ⊢
    tauto
  | «while» cond body =>
    rw [stmt]
    have hloop : Executes S G Γ Ω [] [] (body.direct ++ body.inner) jumps _ :=
      executes_scopedLoop (hb.loop (hb.bind (hb.eval cond) fun v => hb.truth v)
        (hb.stmt fuel body) (hb.pure ()) fuel false) hplaced (keeps_truth hctx hs.1)
        (keeps_owning.pure ()) (executes_stmt hb hctx fuel body hs.2 hplaced.body)
    exact hloop
  | doWhile cond body =>
    rw [stmt]
    have hloop : Executes S G Γ Ω [] [] (body.direct ++ body.inner) jumps _ :=
      executes_scopedLoop (hb.loop (hb.bind (hb.eval cond) fun v => hb.truth v)
        (hb.stmt fuel body) (hb.pure ()) fuel true) hplaced (keeps_truth hctx hs.1)
        (keeps_owning.pure ()) (executes_stmt hb hctx fuel body hs.2 hplaced.body)
    exact hloop
  | «for» init cond step body =>
    obtain ⟨hinit, hcond, hstep, hbody⟩ := hs
    rw [stmt]
    -- A `for` has two scopes: one for what its first part declares, and one inside of it for the
    -- loop.
    have hplaced' := hplaced.enter
    have hloop : Executes S G _ _ [] [] (body.direct ++ body.inner) jumps _ :=
      executes_scopedLoop (hb.loop (hb.loopTest cond) (hb.stmt fuel body) (hb.loopStep step) fuel
        false) hplaced' (keeps_loopTest hctx hcond) (keeps_loopStep hctx hstep)
        (executes_stmt hb hctx fuel body hbody hplaced'.body)
    refine (ends_loopStart hctx hinit (fun l hl => List.mem_append_left _ hl) hloop.ends).inScope ?_
      (fun l hl => List.mem_append_right _ hl) hplaced.apart
    refine hb.bind (hb.loopStart init) fun _ => hb.inScope ?_
    exact hb.loop (hb.loopTest cond) (hb.stmt fuel body) (hb.loopStep step) fuel false
  | «switch» selector parts =>
    rw [stmt]
    refine (keeps_eval hctx selector hs.1).executes fun v => ?_
    exact executes_cases hb hctx fuel v parts hs.2 hplaced

theorem executes_stmts {Γ : Meanings} {Ω : List Leaf} {jumps : Jumps}
    (hb : ComposedIn @Bracketed ctx) (hctx : Callable S G ctx) (fuel : Nat) (body : List Stmt)
    (hbody : Stmt.Linked.AllLinked S.toLinkage Γ jumps body)
    (hplaced : S.Placed (Stmt.directAll body) (Stmt.inner.innerAll body)
      (Stmt.bare.bareAll body) Ω) :
    Executes S G Γ Ω (Stmt.directAll body) (body.flatMap Stmt.declared)
      (Stmt.directAll body ++ Stmt.inner.innerAll body) jumps (stmts ctx fuel body) := by
  cases body with
  | nil => exact executes_pure trivial
  | cons s rest =>
    rw [stmts]
    have hfirst := executes_stmt hb hctx fuel s hbody.1 (hplaced.sub
      (fun l hl => List.mem_append_left _ hl) (List.sublist_append_left _ _)
      fun l hl => List.mem_append_left _ hl)
    have hrest := executes_stmts hb hctx fuel rest hbody.2 (hplaced.sub
      (fun l hl => List.mem_append_right _ hl) (List.sublist_append_right _ _)
      fun l hl => List.mem_append_right _ hl)
    refine (hfirst.onward hrest).mono (fun _ => id) fun l hl => ?_
    simp only [Stmt.directAll, List.flatMap_cons, Stmt.inner.innerAll, List.mem_append] at hl ⊢
    tauto

theorem ends_resume {Γ : Meanings} {Ω : List Leaf} {jumps : Jumps}
    (hb : ComposedIn @Bracketed ctx) (hctx : Callable S G ctx) (fuel : Nat) (body : List Stmt)
    (hbody : Stmt.Linked.AllLinked S.toLinkage Γ jumps body)
    (hplaced : S.Placed (Stmt.directAll body) (Stmt.inner.innerAll body)
      (Stmt.bare.bareAll body) Ω) (hΓ : Γ.FunctionsIn G) (name : String) (next : Run Signal)
    (hnext : resume ctx fuel body name = some next) :
    ∃ Δ : Meanings, Δ.FunctionsIn G ∧
      Ends S G Δ Ω (Stmt.directAll body ++ Stmt.inner.innerAll body) jumps next := by
  cases body with
  | nil => cases hnext
  | cons s rest =>
    have hplaced' := hplaced.sub (fun l hl => List.mem_append_right _ hl)
      (List.sublist_append_right _ _) fun l hl => List.mem_append_right _ hl
    have hlater : ∀ l ∈ Stmt.directAll rest ++ Stmt.inner.innerAll rest,
        l ∈ Stmt.directAll (s :: rest) ++ Stmt.inner.innerAll (s :: rest) := by
      intro l hl
      simp only [Stmt.directAll, List.flatMap_cons, Stmt.inner.innerAll, List.mem_append] at hl ⊢
      tauto
    rw [resume] at hnext
    cases hrest : resume ctx fuel rest name with
    | some later =>
      rw [hrest] at hnext
      cases hnext
      obtain ⟨Δ, hΔ, hends⟩ :=
        ends_resume hb hctx fuel rest hbody.2 hplaced' (hΓ.declareAll _) name _ hrest
      exact ⟨Δ, hΔ, hends.mono hlater⟩
    | none =>
      rw [hrest] at hnext
      dsimp only at hnext
      split at hnext
      · cases hnext
        have hstmts := executes_stmts hb hctx fuel rest hbody.2 hplaced'
        exact ⟨_, hΓ.declareAll _, hstmts.ends.mono hlater⟩
      · cases hnext

theorem executes_branches {Γ : Meanings} {Ω leaves : List Leaf} {jumps : Jumps}
    (hb : ComposedIn @Bracketed ctx) (hctx : Callable S G ctx) (fuel : Nat) {otherwise : Run Signal}
    (hother : Executes S G Γ Ω [] [] leaves jumps otherwise)
    (conditional : List (Expr × Stmt))
    (hlinked : Stmt.Linked.BranchesLinked S.toLinkage Γ jumps conditional)
    (hplaced : S.Placed (Stmt.direct.directBranches conditional)
      (Stmt.inner.innerBranches conditional) (Stmt.bare.bareBranches conditional) Ω) :
    Executes S G Γ Ω [] [] (Stmt.direct.directBranches conditional ++
      Stmt.inner.innerBranches conditional ++ leaves) jumps
      (branches ctx fuel otherwise conditional) := by
  cases conditional with
  | nil => exact hother
  | cons branch rest =>
    obtain ⟨cond, body⟩ := branch
    obtain ⟨hcond, hbody, hrest⟩ := hlinked
    rw [branches]
    have hthen := executes_stmt hb hctx fuel body hbody (hplaced.sub
      (fun l hl => List.mem_append_left _ hl) (List.sublist_append_left _ _)
      fun l hl => List.mem_append_left _ (List.mem_append_right _ hl))
    have hforget := hthen.forget fun l hl =>
      hplaced.bare l (List.mem_append_left _ (List.mem_append_left _ hl))
    have helse := executes_branches hb hctx fuel hother rest hrest (hplaced.sub
      (fun l hl => List.mem_append_right _ hl) (List.sublist_append_right _ _)
      fun l hl => List.mem_append_right _ hl)
    have hchoice : ∀ b : Bool, Executes S G Γ Ω [] []
        (Stmt.direct.directBranches ((cond, body) :: rest) ++
          Stmt.inner.innerBranches ((cond, body) :: rest) ++ leaves) jumps
        (if b then stmt ctx fuel body else branches ctx fuel otherwise rest) := by
      intro b
      cases b with
      | true =>
        refine hforget.mono (fun _ => id) fun l hl => ?_
        simp only [Stmt.direct.directBranches, Stmt.inner.innerBranches, List.mem_append] at hl ⊢
        tauto
      | false =>
        refine helse.mono (fun _ => id) fun l hl => ?_
        simp only [Stmt.direct.directBranches, Stmt.inner.innerBranches, List.mem_append] at hl ⊢
        tauto
    refine (keeps_eval hctx cond hcond).executes fun v => ?_
    exact Keeps.executes (keeps_owning.truth v) hchoice

theorem executes_cases {Γ : Meanings} {Ω : List Leaf} {jumps : Jumps}
    (hb : ComposedIn @Bracketed ctx) (hctx : Callable S G ctx) (fuel : Nat)
    (selector : Value) (parts : List (Option Expr × List Stmt))
    (hlinked : Stmt.Linked.CasesLinked S.toLinkage Γ jumps.inSwitch parts)
    (hplaced : S.Placed [] (Stmt.inner.innerCases parts) (Stmt.bare.bareCases parts) Ω) :
    Executes S G Γ Ω [] [] (Stmt.inner.innerCases parts) jumps
      (cases ctx fuel selector parts) := by
  cases parts with
  | nil => exact executes_pure trivial
  | cons part rest =>
    obtain ⟨label, body⟩ := part
    obtain ⟨hlabel, hbody, hrest⟩ := hlinked
    rw [Run.cases]
    have hplaced' := hplaced.sub (fun _ hl => hl) (List.sublist_append_left _ _)
      fun l hl => List.mem_append_left _ hl
    have hthen := executes_block (hb.jumping (hb.resume fuel body) (hb.stmts fuel body) fuel)
      (executes_stmts hb hctx fuel body hbody hplaced'.enter)
      (ends_resume hb hctx fuel body hbody hplaced'.enter)
      (fun l hl => List.mem_append_right _ hl) hplaced'.apart
    have helse := executes_cases hb hctx fuel selector rest hrest (hplaced.sub (fun _ hl => hl)
      (List.sublist_append_right _ _) fun l hl => List.mem_append_right _ hl)
    refine (keeps_isChosen hctx selector hlabel).executes fun b => ?_
    split
    · exact hthen.afterCase.mono (fun _ => id) fun l hl => List.mem_append_left _ hl
    · exact helse.mono (fun _ => id) fun l hl => List.mem_append_right _ hl

end

end Run

end MiniC
