import MiniC.Proofs.Names.Executed

set_option autoImplicit false

/-! # Linked programs

Calls keep the invariant, by induction on the steps that are left for them. The pieces of a program
are registered one after another, and each leaves the invariant for the meanings that names have
after it; what is registered before the first call is then all that there is. -/

namespace MiniC

namespace Run

variable {S : Setting} {G Γ : Meanings} {Ω : List Leaf}

/-! ## Calls -/

/-- The parameters of a function become variables of its scope. -/
theorem ensures_bindParams (known : Nat → Option CType) (params : List Declarator)
    (args : List Value) (hlength : args.length = params.length) (hΩ : ∀ d ∈ params, d.name ∈ Ω)
    {h : History} {m : Machine} (hcalls : h.calls ≠ []) (hm : S.Inv G Γ Ω h m) :
    Ensures S (bindParams known params args) h m fun _ h' t =>
      History.Adds (params.map (·.name)) h h' ∧
        S.Inv G (Γ.declareAll (params.map (·.name))) Ω h' t := by
  have hP : ∀ {Γ}, Owning (Keeps S G Γ Ω) := keeps_owning
  induction params generalizing Γ args h m with
  | nil => exact .pure ⟨.refl _ h, hm⟩
  | cons d rest ih =>
    cases args with
    | nil => cases hlength
    | cons v args =>
      have hΩ := List.forall_mem_cons.mp hΩ
      rw [bindParams]
      refine (keeps_declaredType known d).bind_ensures hm fun t u hu => ?_
      refine (hP.convert t v _).bind_ensures hu fun w u' hu' => ?_
      refine (ensures_introduce_local hu' hcalls hΩ.1 t w).bind ?_
      rintro _ h' t' ⟨hadds, ht'⟩
      have hlength : args.length = rest.length := Nat.succ.inj hlength
      refine (ih args hlength hΩ.2 (fun h₀ => hcalls (hadds.level.mp h₀)) ht').imp ?_
      rintro _ h'' u'' ⟨hadds', hu''⟩
      refine ⟨(hadds.mono fun l hl => ?_).trans (hadds'.mono fun l hl => ?_), hu''⟩
      · rw [List.mem_singleton.mp hl]
        exact List.mem_cons_self
      · exact List.mem_cons_of_mem _ hl

/-- The body of a linked function ends with no jump out of a loop or a switch. -/
theorem keeps_callResult (f : FunctionDef) (pos : Option Position) {signal : Signal}
    (hlets : S.Lets .none signal) : Keeps S G Γ Ω (callResult f pos signal) := by
  have hP : Owning (Keeps S G Γ Ω) := keeps_owning
  cases signal with
  | normal => exact hP.pure none
  | «break» | «continue» => cases hlets
  | goto label => exact fun _ _ _ => .stop (.inl rfl)
  | «return» value =>
    cases value with
    | none => exact hP.pure none
    | some v =>
      rw [callResult]
      split
      · exact hP.pure none
      · exact hP.bind (hP.convert _ v pos) fun v => hP.pure (some v)

/-- The parameters and the body of a function that is ready. -/
theorem ensures_body {ctx : Context} (hb : ComposedIn @Bracketed ctx) (hctx : Callable S G ctx)
    (fuel : Nat) {f : FunctionDef} (hready : S.Ready G f) {args : List Value}
    (hlength : args.length = f.params.length) {h : History} {m : Machine}
    (hm : S.Inv G Γ Ω h m) :
    Ensures S (do
      bindParams ctx.known f.params args
      stmt ctx fuel (.block f.body)) { h with calls := [] :: h.calls } (m.enterCall f.name)
      fun signal h' t => S.Lets .none signal ∧
        History.Adds (f.params.map (·.name) ++ (Stmt.block f.body).inner)
          { h with calls := [] :: h.calls } h' ∧
        ∃ Δ, S.Inv G Δ (f.params.map (·.name) ++ S.globals) h' t := by
  obtain ⟨⟨Δ, hΔ, hbody⟩, hplaced⟩ := hready
  have henter : S.Inv G Δ (f.params.map (·.name) ++ S.globals) _ (m.enterCall f.name) :=
    hm.enterCall f.name hΔ fun l hl => List.mem_append_right _ hl
  have hparams := ensures_bindParams ctx.known f.params args hlength
    (fun d hd => List.mem_append_left _ (List.mem_map_of_mem hd)) (List.cons_ne_nil _ _) henter
  refine hparams.bind ?_
  rintro _ h' t ⟨hadds, ht⟩
  have hstmt := executes_stmt hb hctx fuel (.block f.body) hbody hplaced
  have hcalls : h'.calls ≠ [] := fun h₀ => List.cons_ne_nil _ _ (hadds.level.mp h₀)
  refine (hstmt.ends h' t hcalls ht).imp ?_
  rintro signal h'' u ⟨hlets, hadds', hu⟩
  refine ⟨hlets, ?_, hu⟩
  exact (hadds.mono fun l hl => List.mem_append_left _ hl).trans
    (hadds'.mono fun l hl => List.mem_append_right _ hl)

/-- Calls keep the invariant, however many steps they may take. -/
theorem callable_call (known : Nat → Option CType) (fuel : Nat) :
    Callable S G ⟨known, call known fuel⟩ := by
  induction fuel with
  | zero => exact fun _ _ _ _ _ _ _ _ _ _ => .stop (.inl rfl)
  | succ fuel ih =>
    intro Γ Ω f args pos hready hlength
    have hb : ComposedIn @Bracketed ⟨known, call known fuel⟩ :=
      composed_bracketed.context known fuel
    have hP : Owning (Keeps S G Γ Ω) := keeps_owning
    have hcall : args.length = f.params.length → Keeps S G Γ Ω (do
        let signal ← inCall f.name do
          bindParams known f.params args
          stmt ⟨known, call known fuel⟩ fuel (.block f.body)
        callResult f pos signal) := by
      intro hlength h m hm
      have hbracketed := hb.bind (hb.bindParams known f.params args) fun _ =>
        hb.stmt fuel (.block f.body)
      have hbody := ensures_body hb ih fuel hready hlength hm
      refine (ensures_inCall hbracketed hm hbody).bind ?_
      rintro signal _ t ⟨hlets, rfl, ht⟩
      exact keeps_callResult f pos hlets _ t ht
    have hdepth : args.length = f.params.length → Keeps S G Γ Ω (do
        if maxDepth ≤ (← get).depth then fail .callOverflow pos
        let signal ← inCall f.name do
          bindParams known f.params args
          stmt ⟨known, call known fuel⟩ fuel (.block f.body)
        callResult f pos signal) := by
      intro hlength
      refine hP.observe (fun _ _ _ _ => rfl) fun m _ => ?_
      dsimp only
      split
      · exact hP.bind (hP.fail pos rfl) fun _ => hcall hlength
      · exact hcall hlength
    dsimp only
    rw [call]
    split
    · rename_i hne
      -- the analysis lets such a call pass where it takes the callee for another function
      have hprint : S.hasPrint := hlength.resolve_left hne
      exact fun h m _ => .stop_bind (.inr (.inl hprint))
    · rename_i heq
      exact hdepth (not_not.mp heq)

end Run

/-! ## Pieces of programs -/

namespace Setting

variable (S : Setting)

/-- Whether the declarations of a piece of a program are placed: global variables are known as such,
and what is declared in a function is new there. -/
structure Houses (i : Item) : Prop where
  globals : ∀ l ∈ i.globals, l ∈ S.globals
  body : ∀ returnType name params body, i = .function returnType name params body →
    S.Placed [] (Stmt.block body).inner (Stmt.block body).bare
      (params.map (·.name) ++ S.globals)

variable {S} {G G' : Meanings} {h : History} {m m' : Machine}

/-- A function that is registered changes what one name means, and no variable. -/
theorem Inv.register (hm : S.Inv G G S.globals h m) {id arity : Nat} (hlinks :
    S.Links (G.set id (.function arity)) m') (hframes : m'.frames = m.frames)
    (hcurrent : m'.current = m.current) (harena : m'.arena = m.arena) :
    S.Inv (G.set id (.function arity)) (G.set id (.function arity)) S.globals h m' where
  nested := (Machine.alike_of_frames hframes hcurrent).nested hm.nested
  links := hlinks
  functions _ _ hn := hn
  level := by
    rw [hcurrent]
    exact hm.level
  tracks hfree := by
    have hvariable : ∀ n l, G.set id (.function arity) n = some (.variable l) →
        G n = some (.variable l) := by
      intro n l hn
      by_cases hid : n = id
      · rw [hid, Meanings.set_same] at hn
        cases hn
      · rwa [Meanings.set_other _ _ hid] at hn
    have htracks := (hm.tracks hfree).congr (Machine.alike_of_frames hframes hcurrent)
      (Nat.le_of_eq (congrArg Arena.next harena.symm))
    exact ⟨htracks.fresh, htracks.distinct, htracks.outermost.weaken hvariable,
      htracks.here.weaken hvariable⟩

end Setting

/-- The name of a function that is admitted means at most a function with as many parameters
before. -/
theorem Meanings.Admits.within {G : Meanings} {id arity : Nat} (h : G.Admits id arity) :
    G.Within (G.set id (.function arity)) := by
  intro n meaning hn
  by_cases hid : n = id
  · subst hid
    rw [set_same, ← hn]
    rcases h with h | h
    · rw [h] at hn
      cases hn
    · exact h.symm
  · rwa [set_other _ _ hid]

namespace Run

variable {S : Setting} {G : Meanings}

theorem keeps_structDecl {ctx : Context} (hctx : Callable S G ctx) (name : Leaf)
    {fields : List Declarator} (hfields : ∀ d ∈ fields, d.SizesLinked S.toLinkage G) :
    Keeps S G G S.globals (structDecl ctx name fields) := by
  have hP : Owning (Keeps S G G S.globals) := keeps_owning
  have hadd (decl : Nat) (field : Field) : Keeps S G G S.globals
      (modify fun m => { m with structs := m.structs.addField decl field }) :=
    keeps_declares fun structs => (PUnit.unit, structs.addField decl field)
  refine hP.bind (keeps_declares fun structs => structs.declare name.token.text) fun decl => ?_
  refine hP.forM fun d hd => hP.bind (keeps_declaredType ctx.known d) fun t => ?_
  refine hP.bind (hadd decl _) fun _ => ?_
  split
  · exact hP.bind (keeps_arraySizes hctx (hfields d hd) none) fun sizes => hadd decl _
  · exact hP.pure ()

/-- What a piece of a program ensures where names mean what `G` says. -/
def Registers (S : Setting) (G G' : Meanings) (x : Run Unit) : Prop :=
  ∀ h m, h.calls = [] → S.Inv G G S.globals h m → Ensures S x h m fun _ h' t =>
    h'.calls = [] ∧ S.Inv G' G' S.globals h' t

theorem registers_declarators {ctx : Context} (hctx : ∀ G, Callable S G ctx)
    (ds : List Declarator) (hds : Declarator.GlobalsLinked S.toLinkage G ds)
    (hglobals : ∀ d ∈ ds, d.name ∈ S.globals) :
    Registers S G (G.declareAll (ds.map (·.name))) (ds.forM (declarator ctx)) := by
  induction ds generalizing G with
  | nil => exact fun _ _ hcalls hm => .pure ⟨hcalls, hm⟩
  | cons d rest ih =>
    intro h m hcalls hm
    obtain ⟨hd, hnew, hrest⟩ := hds
    have hglobals := List.forall_mem_cons.mp hglobals
    have hfirst := ensures_declarator (hctx G) hd (fun t v u hu =>
      ensures_introduce_global hu hcalls hglobals.1 hnew t v) hm
    refine hfirst.bind ?_
    rintro _ h' t ⟨hcalls', ht⟩
    exact ih hrest hglobals.2 h' t hcalls' ht

theorem registers_item {ctx : Context} (hctx : ∀ G, Callable S G ctx) (i : Item)
    (hi : i.Linked S.toLinkage G) (hhouses : S.Houses i) :
    Registers S G (i.after G) (item ctx i) := by
  have hP : Owning (Keeps S G G S.globals) := keeps_owning
  intro h m hcalls hm
  cases i with
  | directive token => exact .pure ⟨hcalls, hm⟩
  | struct name fields =>
    refine (keeps_structDecl (hctx G) name hi h m hm).imp ?_
    rintro _ _ t ⟨rfl, ht⟩
    exact ⟨hcalls, ht⟩
  | function returnType name params body =>
    obtain ⟨hadmits, hprint, hbody⟩ := hi
    refine (hP.resolve ctx.known returnType).bind_ensures hm fun t u hu => ?_
    have hready : S.Ready (G.set name.token.id (.function params.length))
        ⟨name.token.text, params, body, t⟩ :=
      ⟨⟨_, fun _ _ => id, hbody⟩, hhouses.body _ _ _ _ rfl⟩
    refine .modify ⟨hcalls, hu.register ⟨fun id f hf => ?_, fun id n hn => ?_⟩ rfl rfl rfl⟩
    · rcases mem_setUnder hf with heq | hf
      · cases heq
        exact ⟨hready, Meanings.set_same .., hprint⟩
      · obtain ⟨hf, harity, hisPrint⟩ := hu.links.ready id f hf
        exact ⟨hf.mono hadmits.within, hadmits.within _ _ harity, hisPrint⟩
    · rw [lookup_setUnder]
      by_cases hid : id = name.token.id
      · exact .inl (by rw [if_pos hid]; rfl)
      · rw [if_neg hid]
        rw [Meanings.set_other _ _ hid] at hn
        exact hu.links.known id n hn
  | prototype returnType name params =>
    refine .modify ⟨hcalls, hm.register ⟨fun id f hf => ?_, fun id n hn => ?_⟩ rfl rfl rfl⟩
    · obtain ⟨hf, harity, hisPrint⟩ := hm.links.ready id f hf
      exact ⟨hf.mono (Meanings.Admits.within hi), Meanings.Admits.within hi _ _ harity, hisPrint⟩
    · rw [lookup_setUnder]
      by_cases hid : id = name.token.id
      · exact .inr (by rw [if_pos hid]; rfl)
      · rw [if_neg hid]
        rw [Meanings.set_other _ _ hid] at hn
        exact hm.links.known id n hn
  | declaration d =>
    have hglobals : ∀ d' ∈ d.all, d'.name ∈ S.globals := fun d' hd' =>
      hhouses.globals _ (List.mem_map_of_mem hd')
    exact registers_declarators hctx d.all hi hglobals h m hcalls hm

theorem registers_items {ctx : Context} (hctx : ∀ G, Callable S G ctx) (items : List Item)
    (hitems : Item.AllLinked S.toLinkage G items) (hhouses : ∀ i ∈ items, S.Houses i) :
    ∃ G', Registers S G G' (items.forM (item ctx)) := by
  induction items generalizing G with
  | nil => exact ⟨G, fun _ _ hcalls hm => .pure ⟨hcalls, hm⟩⟩
  | cons i rest ih =>
    have hhouses := List.forall_mem_cons.mp hhouses
    obtain ⟨G', hrest⟩ := ih hitems.2 hhouses.2
    refine ⟨G', fun h m hcalls hm => ?_⟩
    refine (registers_item hctx i hitems.1 hhouses.1 h m hcalls hm).bind ?_
    rintro _ h' t ⟨hcalls', ht⟩
    exact hrest h' t hcalls' ht

end Run

/-! ## Programs -/

/-- At the start of a run, no name means anything. -/
theorem Setting.inv_start (S : Setting) :
    S.Inv .empty .empty S.globals .start .start where
  nested := by
    refine ⟨Nat.zero_lt_one, fun k frame p hframe hp => ?_, ?_⟩
    · cases k with
      | zero =>
        cases hframe
        cases hp
      | succ k => cases hframe
    · rintro _ ⟨⟩
      rfl
  links := ⟨fun _ _ h => (by cases h), fun _ _ h => by cases h⟩
  functions _ _ h := by cases h
  level := ⟨fun _ => rfl, fun _ => rfl⟩
  tracks _ := by
    have hagrees : Agrees S.bare .empty S.globals (fun _ => none) fun _ => none :=
      ⟨fun _ _ h => (by cases h), fun _ _ h => by cases h⟩
    exact ⟨fun _ h => (by cases h), .nil, hagrees, hagrees⟩

theorem Run.ensures_program (S : Setting) (known : Nat → Option CType) (fuel : Nat) (p : Program)
    (hlinked : Item.AllLinked S.toLinkage .empty p.items) (hhouses : ∀ i ∈ p.items, S.Houses i) :
    Ensures S (Run.program known fuel p) .start .start fun _ _ _ => True := by
  have hctx : ∀ G, Callable S G ⟨known, call known fuel⟩ := fun _ => callable_call known fuel
  obtain ⟨G, hitems⟩ := registers_items hctx p.items hlinked hhouses
  have hP : Owning (Keeps S G G S.globals) := keeps_owning
  refine (hitems _ _ rfl S.inv_start).bind ?_
  rintro _ h m ⟨-, hm⟩
  refine .get_bind ?_
  cases hmain : mainFunction? m.functions with
  | none => exact .stop (.inl rfl)
  | some f =>
    have hf := List.mem_of_find?_eq_some hmain
    rw [List.mem_reverse, List.mem_map] at hf
    obtain ⟨⟨id, f⟩, hmem, rfl⟩ := hf
    have hparams : f.params = [] := by
      have hfound := List.find?_some hmain
      simp only [Bool.and_eq_true, List.isEmpty_iff] at hfound
      exact hfound.2
    have hready := (hm.links.ready id f hmem).1
    have hcall : Keeps S G G S.globals (call known fuel f [] p.pos?) :=
      hctx G G S.globals f [] p.pos? hready (.inl (congrArg List.length hparams.symm))
    have hstart : Keeps S G G S.globals
        (modify fun m : Machine => { m with events := m.events.push .started }) :=
      hP.change (fun m => ⟨_, _, _, Nat.le_refl _, rfl⟩) fun _ _ _ _ => rfl
    refine hstart.bind_ensures hm fun _ t ht => ?_
    exact hcall.bind_ensures ht fun _ _ _ => .pure trivial

end MiniC
