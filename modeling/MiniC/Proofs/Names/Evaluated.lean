import MiniC.Proofs.Names.Ensures

set_option autoImplicit false

/-! # Expressions and declarations of linked programs

The evaluation of a linked expression keeps the invariant, if calls do. A declaration evaluates what
it has to, and makes its variable at the end. -/

namespace MiniC.Run

variable {S : Setting} {G Γ : Meanings} {Ω : List Leaf} {ctx : Context}

/-- Whether the calls in a context keep the invariant, wherever they are made. Calls of functions
that are ready have as many arguments as these have parameters, unless the function that is there
without a declaration is defined after all. -/
def Callable (S : Setting) (G : Meanings) (ctx : Context) : Prop :=
  ∀ Γ Ω f args pos, S.Ready G f → (args.length = f.params.length ∨ S.hasPrint) →
    Keeps S G Γ Ω (ctx.call f args pos)

/-! ## Calls -/

/-- A call that is linked keeps the invariant if its arguments do. -/
theorem keeps_invoke (hctx : Callable S G ctx) {callee : Expr} {count : Nat}
    (hcallee : callee.IsCallee S.toLinkage Γ count) {first : Option (Run Value)}
    {args : Run (List Value)} (hfirst : ∀ x ∈ first, Keeps S G Γ Ω x)
    (hargs : ∀ h m, S.Inv G Γ Ω h m → Ensures S args h m fun vs h' t =>
      vs.length = count ∧ h' = h ∧ S.Inv G Γ Ω h t) :
    Keeps S G Γ Ω (invoke ctx callee first args) := by
  obtain ⟨leaf, rfl, hmeaning⟩ := hcallee
  intro h m hm
  refine .get_bind ?_
  cases hf : m.functions.lookup leaf.token.id with
  | some f =>
    obtain ⟨hready, harity, hprint⟩ := hm.links.ready _ f (mem_of_lookup hf)
    have hlength : ∀ vs : List Value, vs.length = count →
        vs.length = f.params.length ∨ S.hasPrint := by
      intro vs hvs
      -- Only calls of `printf` are linked without a count of parameters.
      rcases hmeaning with hfunction | ⟨-, -, hisPrint⟩
      · have hcount := hm.functions _ _ hfunction
        rw [harity, Option.some.injEq, Meaning.function.injEq] at hcount
        exact .inl (hvs.trans hcount.symm)
      · exact .inr (hprint hisPrint)
    refine (hargs h m hm).bind ?_
    rintro vs h' t ⟨hvs, rfl, ht⟩
    exact hctx Γ Ω f vs _ hready (hlength vs hvs) h' t ht
  | none =>
    have hP : Owning (Keeps S G Γ Ω) := keeps_owning
    dsimp only
    split
    · refine hP.bind ?_ (fun v => hP.pure (some v)) h m hm
      cases first with
      | none => exact hP.failAt _ rfl
      | some x => exact hP.bind (hfirst x rfl) fun v => hP.print v
    · rename_i htext
      refine .get_bind ?_
      split
      · exact .stop (.inl rfl)
      · rename_i hprototype
        rcases hmeaning with hfunction | ⟨-, hprint, -⟩
        · rcases hm.links.known _ _ (hm.functions _ _ hfunction) with hsome | hsome
          · rw [hf] at hsome
            cases hsome
          · exact absurd hsome hprototype
        · exact absurd hprint htext

/-! ## Expressions -/

/-- The expressions that are linked where names mean what `Γ` says. -/
theorem linked_list {L : Linkage} {head : Expr} {tail : List Expr}
    (h : (Expr.list head tail).Linked L Γ) : ∀ e ∈ head :: tail, e.Linked L Γ := by
  have hall : ∀ es : List Expr, Expr.Linked.AllLinked L Γ es → ∀ e ∈ es, e.Linked L Γ := by
    intro es
    induction es with
    | nil => exact fun _ e he => by cases he
    | cons e rest ih => exact fun hes => List.forall_mem_cons.mpr ⟨hes.1, ih hes.2⟩
  exact List.forall_mem_cons.mpr ⟨h.1, hall tail h.2⟩

mutual

theorem keeps_eval (hctx : Callable S G ctx) (e : Expr) (he : e.Linked S.toLinkage Γ) :
    Keeps S G Γ Ω (eval ctx e) := by
  have hP : Owning (Keeps S G Γ Ω) := keeps_owning
  cases e with
  | identifier leaf =>
    rw [eval]
    refine hP.bind (keeps_use he) fun _ => ?_
    exact hP.bind (keeps_variablePlace he) fun place => hP.read place
  | literal leaf kind =>
    rw [eval]
    exact hP.literal leaf kind
  | parens e =>
    rw [eval]
    exact keeps_eval hctx e he
  | unary op e =>
    by_cases hop : op = .address
    · subst hop
      rw [eval]
      exact hP.bind (keeps_place hctx none e he.2 (he.1 rfl)) fun place => hP.address place
    · rw [eval]
      · exact hP.bind (keeps_eval hctx e he.2) fun v => hP.unary hop v _
      · exact hop
  | step op e =>
    rw [eval]
    exact hP.bind (keeps_place hctx none e he.2 he.1) fun place => hP.step op place _
  | binary op left right =>
    cases op with
    | arith op =>
      rw [eval]
      refine hP.bind (keeps_eval hctx left he.1) fun l => ?_
      refine hP.bind (keeps_eval hctx right he.2) fun r => ?_
      exact hP.arith op l r _
    | relation op =>
      rw [eval]
      refine hP.bind (keeps_eval hctx left he.1) fun l => ?_
      refine hP.bind (keeps_eval hctx right he.2) fun r => ?_
      exact hP.bind (hP.lift (Value.linkageFree_compare op l r)) fun b => hP.pure _
    | logic op =>
      rw [eval]
      refine hP.bind (keeps_eval hctx left he.1) fun l => hP.bind (hP.truth l) fun b => ?_
      split
      · exact hP.pure _
      · exact hP.bind (keeps_eval hctx right he.2) fun r => hP.bind (hP.truth r) fun b => hP.pure _
  | assign op left right =>
    obtain ⟨hplace, hleft, hright⟩ := he
    cases op with
    | none =>
      rw [eval]
      refine hP.bind (keeps_eval hctx right hright) fun v => ?_
      exact hP.bind (keeps_place hctx (some v) left hleft hplace) fun place => hP.assign place v _
    | some op =>
      rw [eval]
      refine hP.bind (keeps_eval hctx right hright) fun v => ?_
      exact hP.bind (keeps_place hctx none left hleft hplace) fun place => hP.update op place v _
  | conditional cond first second =>
    rw [eval]
    refine hP.bind (keeps_eval hctx cond he.1) fun v => hP.bind (hP.truth v) fun b => ?_
    split
    · exact keeps_eval hctx first he.2.1
    · exact keeps_eval hctx second he.2.2
  | call callee args =>
    rw [eval]
    refine hP.bind (keeps_invoke hctx he.1 ?_ (ensures_evalAll hctx args he.2)) fun result => ?_
    · cases args with
      | nil => exact fun x hx => by cases hx
      | cons e rest =>
        rintro x ⟨⟩
        exact keeps_eval hctx e he.2.1
    · cases result with
      | none => exact hP.failAt _ rfl
      | some v => exact hP.pure v
  | index base i =>
    rw [eval]
    refine hP.bind (keeps_eval hctx base he.1) fun b => hP.bind (keeps_eval hctx i he.2) fun v => ?_
    exact hP.bind (hP.element _ b v) fun place => hP.read place
  | member e field =>
    rw [eval]
    refine hP.bind (keeps_eval hctx e he) fun v => hP.bind (hP.member _ _ v) fun place => ?_
    exact hP.read place
  | arrow e field =>
    rw [eval]
    refine hP.bind (keeps_eval hctx e he) fun v => hP.bind (hP.arrow _ _ v) fun place => ?_
    exact hP.read place
  | sizeOf type =>
    rw [eval]
    exact hP.sizeNamed _ type
  | cast type e =>
    rw [eval]
    refine hP.bind (hP.resolve _ type) fun t => hP.bind (keeps_eval hctx e he) fun v => ?_
    exact hP.convert t v _
  | list head tail =>
    rw [eval]
    exact hP.failAt _ rfl

/-- The place of an expression that denotes one. -/
theorem keeps_place (hctx : Callable S G ctx) (new : Option Value) (e : Expr)
    (he : e.Linked S.toLinkage Γ) (hplace : e.isPlace = true) : Keeps S G Γ Ω (place ctx new e) := by
  have hP : Owning (Keeps S G Γ Ω) := keeps_owning
  cases e with
  | identifier leaf =>
    cases new with
    | none => exact hP.bind (keeps_use he) fun _ => keeps_variablePlace he
    | some v => exact hP.bind (keeps_use he) fun _ => keeps_variableFor he v
  | parens e =>
    rw [place]
    exact keeps_place hctx new e he hplace
  | unary op e =>
    cases op with
    | deref =>
      rw [place]
      exact hP.bind (keeps_eval hctx e he.2) fun v => hP.target _ v
    | _ => cases hplace
  | index base i =>
    rw [place]
    exact hP.bind (keeps_eval hctx base he.1) fun b => hP.bind (keeps_eval hctx i he.2) fun v =>
      hP.element _ b v
  | member e field =>
    rw [place]
    exact hP.bind (keeps_eval hctx e he) fun v => hP.member _ _ v
  | arrow e field =>
    rw [place]
    exact hP.bind (keeps_eval hctx e he) fun v => hP.arrow _ _ v
  | _ => cases hplace

theorem ensures_evalAll (hctx : Callable S G ctx) (args : List Expr)
    (hargs : Expr.Linked.AllLinked S.toLinkage Γ args) (h : History) (m : Machine)
    (hm : S.Inv G Γ Ω h m) :
    Ensures S (evalAll ctx args) h m fun vs h' t =>
      vs.length = args.length ∧ h' = h ∧ S.Inv G Γ Ω h t := by
  cases args with
  | nil => exact .pure ⟨rfl, rfl, hm⟩
  | cons e rest =>
    rw [evalAll]
    refine (keeps_eval hctx e hargs.1).bind_ensures hm fun v t ht => ?_
    refine (ensures_evalAll hctx rest hargs.2 h t ht).bind ?_
    rintro vs _ u ⟨hvs, rfl, hu⟩
    exact .pure ⟨congrArg (· + 1) hvs, rfl, hu⟩

end

/-! ## Declarations -/

/-- The linked expressions, as items of initializers. -/
theorem keeps_items (hctx : Callable S G ctx) :
    Closed.Items (Keeps S G Γ Ω) (fun e => e.Linked S.toLinkage Γ) (eval ctx) :=
  ⟨fun he => keeps_eval hctx _ he, fun h => linked_list h⟩

theorem keeps_arraySizes (hctx : Callable S G ctx) {d : Declarator}
    (hd : d.SizesLinked S.toLinkage Γ) (init : Option Expr) :
    Keeps S G Γ Ω (arraySizes (eval ctx) d init) :=
  keeps_owning.toClosed.arraySizes (keeps_items hctx) hd init

theorem keeps_declaredType (known : Nat → Option CType) (d : Declarator) :
    Keeps S G Γ Ω (declaredType known d) := by
  have hP : Owning (Keeps S G Γ Ω) := keeps_owning
  exact hP.bind (hP.resolve known d.type) fun _ => hP.pure _

section

variable {d : Declarator} {h : History} {Q : Unit → History → Machine → Prop}

/-- A declaration ensures what making its variable ensures, whatever value the variable gets. -/
theorem ensures_declareArray (hctx : Callable S G ctx) (hd : d.Linked S.toLinkage Γ)
    (hintroduce : ∀ t v m, S.Inv G Γ Ω h m → Ensures S (introduce d.name t v) h m Q)
    (elem : CType) {m : Machine} (hm : S.Inv G Γ Ω h m) :
    Ensures S (declareArray ctx d elem) h m Q := by
  have hP : Owning (Keeps S G Γ Ω) := keeps_owning
  refine (keeps_arraySizes hctx hd.1 d.init).bind_ensures hm fun sizes t ht => ?_
  refine (keeps_declaredType ctx.known d).bind_ensures ht fun type u hu => ?_
  refine (hP.newArray true elem sizes).bind_ensures hu fun array v hv => ?_
  cases hinit : d.init with
  | none => exact hintroduce type _ v hv
  | some init =>
    have hfill : Keeps S G Γ Ω (fillArray (eval ctx) array elem sizes init) :=
      hP.toClosed.fillArray (keeps_items hctx) array elem sizes init (hd.2 init hinit)
    exact hfill.bind_ensures hv fun _ w hw => hintroduce type _ w hw

theorem ensures_declareZero
    (hintroduce : ∀ t v m, S.Inv G Γ Ω h m → Ensures S (introduce d.name t v) h m Q)
    (t : CType) {m : Machine} (hm : S.Inv G Γ Ω h m) : Ensures S (declareZero d t) h m Q := by
  have hP : Owning (Keeps S G Γ Ω) := keeps_owning
  unfold declareZero
  split
  · exact .stop_bind (.inl rfl)
  · exact (hP.zeroValue t).bind_ensures hm fun v u hu => hintroduce t v u hu

theorem ensures_declareRecord (hctx : Callable S G ctx) {init : Expr}
    (hinit : init.Linked S.toLinkage Γ)
    (hintroduce : ∀ t v m, S.Inv G Γ Ω h m → Ensures S (introduce d.name t v) h m Q)
    (t : CType) {m : Machine} (hm : S.Inv G Γ Ω h m) :
    Ensures S (declareRecord ctx d t init) h m Q := by
  have hP : Owning (Keeps S G Γ Ω) := keeps_owning
  unfold declareRecord
  split
  · exact .stop_bind (.inl rfl)
  · refine (hP.zeroValue t).bind_ensures hm fun v u hu => ?_
    have hfill : Keeps S G Γ Ω (fillStruct ctx t init v) := by
      cases v with
      | record id => exact hP.toClosed.fillRecord (keeps_items hctx) id t init hinit
      | _ => exact hP.pure _
    exact hfill.bind_ensures hu fun _ w hw => hintroduce t v w hw

theorem ensures_declareValue (hctx : Callable S G ctx) {init : Expr}
    (hinit : init.Linked S.toLinkage Γ)
    (hintroduce : ∀ t v m, S.Inv G Γ Ω h m → Ensures S (introduce d.name t v) h m Q)
    (t : CType) {m : Machine} (hm : S.Inv G Γ Ω h m) :
    Ensures S (declareValue ctx d t init) h m Q := by
  have hP : Owning (Keeps S G Γ Ω) := keeps_owning
  refine (keeps_eval hctx init hinit).bind_ensures hm fun v u hu => ?_
  have hconvert : ∀ t u, S.Inv G Γ Ω h u → Ensures S (do
      introduce d.name t (← convert t v (some init.pos))) h u Q := by
    intro t u hu
    exact (hP.convert t v _).bind_ensures hu fun w u' hu' => hintroduce t w u' hu'
  dsimp only
  split
  · exact (hP.typeOfValue _ v).bind_ensures hu fun t u' hu' => hconvert t u' hu'
  · exact (hP.pure t).bind_ensures hu fun t u' hu' => hconvert t u' hu'

theorem ensures_declarator (hctx : Callable S G ctx) (hd : d.Linked S.toLinkage Γ)
    (hintroduce : ∀ t v m, S.Inv G Γ Ω h m → Ensures S (introduce d.name t v) h m Q)
    {m : Machine} (hm : S.Inv G Γ Ω h m) : Ensures S (declarator ctx d) h m Q := by
  have hP : Owning (Keeps S G Γ Ω) := keeps_owning
  refine (hP.resolve ctx.known d.type).bind_ensures hm fun t u hu => ?_
  split
  · exact ensures_declareArray hctx hd hintroduce t hu
  · split
    · exact ensures_declareZero hintroduce t hu
    · rename_i init hinit
      split
      · exact ensures_declareRecord hctx (hd.2 init hinit) hintroduce t hu
      · exact ensures_declareValue hctx (hd.2 init hinit) hintroduce t hu

end

/-- The declarations of an instruction make variables of the innermost scope of a call. -/
theorem ensures_declarators (hctx : Callable S G ctx) (ds : List Declarator)
    (hds : Declarator.AllLinked S.toLinkage Γ ds) (hΩ : ∀ d ∈ ds, d.name ∈ Ω) {h : History}
    {m : Machine} (hcalls : h.calls ≠ []) (hm : S.Inv G Γ Ω h m) :
    Ensures S (ds.forM (declarator ctx)) h m fun _ h' t =>
      History.Adds (ds.map (·.name)) h h' ∧
        S.Inv G (Γ.declareAll (ds.map (·.name))) Ω h' t := by
  induction ds generalizing Γ h m with
  | nil => exact .pure ⟨.refl _ h, hm⟩
  | cons d rest ih =>
    have hΩ := List.forall_mem_cons.mp hΩ
    have hintroduce : ∀ t v u, S.Inv G Γ Ω h u → Ensures S (introduce d.name t v) h u
        fun _ h' t => History.Adds [d.name] h h' ∧ S.Inv G (Γ.declare d.name) Ω h' t :=
      fun t v u hu => ensures_introduce_local hu hcalls hΩ.1 t v
    refine (ensures_declarator hctx hds.1 hintroduce hm).bind ?_
    rintro _ h' t ⟨hadds, ht⟩
    refine (ih hds.2 hΩ.2 (fun h₀ => hcalls (hadds.level.mp h₀)) ht).imp ?_
    rintro _ h'' u ⟨hadds', hu⟩
    refine ⟨(hadds.mono fun l hl => ?_).trans (hadds'.mono fun l hl => ?_), hu⟩
    · rw [List.mem_singleton.mp hl]
      exact List.mem_cons_self
    · exact List.mem_cons_of_mem _ hl

end MiniC.Run
