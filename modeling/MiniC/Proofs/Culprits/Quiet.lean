import MiniC.Proofs.Culprits.Placed

set_option autoImplicit false

/-! # Faults of expressions and faults of the functions they call

An expression is evaluated a second time where calls say nothing about what goes wrong inside the
functions. Then it does the same, with its faults at its own tokens; unless it stops inside a
function that it calls. -/

namespace MiniC

variable {known : Nat → Option CType} {fuel : Nat} {T : Position → Prop} {α β : Type}

namespace Run

/-! ## Calls that say nothing -/

/-- What a call does between entering and leaving a function. -/
def inside (known : Nat → Option CType) (fuel : Nat) (f : FunctionDef) (args : List Value) :
    Run Signal := do
  bindParams known f.params args
  stmt ⟨known, call known fuel⟩ fuel (.block f.body)

/-- A call that says nothing about what goes wrong inside the function. -/
def quietCall (known : Nat → Option CType) :
    Nat → FunctionDef → List Value → Option Position → Run (Option Value)
  | 0, _, _, _ => throw .unfinished
  | fuel + 1, f, args, pos => do
    if args.length ≠ f.params.length then fail (.wrongArgumentCount f.name) pos
    if maxDepth ≤ (← get).depth then fail .callOverflow pos
    match ← (inCall f.name (inside known fuel f args)).mapError fun _ => .unfinished with
    | .goto _ => throw .unfinished
    | signal => callResult f pos signal

end Run

/-- The context of a run. -/
def Context.telling (known : Nat → Option CType) (fuel : Nat) : Context :=
  ⟨known, Run.call known fuel⟩

/-- A context in which calls say nothing about what goes wrong inside the functions. -/
def Context.quiet (known : Nat → Option CType) (fuel : Nat) : Context :=
  ⟨known, Run.quietCall known fuel⟩

namespace Run

/-- A call of a function with arguments, made by an expression in a state of a run. -/
structure CallSite where
  f : FunctionDef
  args : List Value
  pos : Option Position
  state : Machine

/-- Whether a run that begins in a state goes wrong inside a function that it calls: it ends with
what the call does. -/
structure GoesWrongIn (known : Nat → Option CType) (fuel : Nat) (x : Run α) (m : Machine)
    (site : CallSite) (stop : Stop) (t : Machine) : Prop where
  exec : (call known fuel site.f site.args site.pos).exec site.state = .error stop t
  quiet : (quietCall known fuel site.f site.args site.pos).exec site.state = .error .unfinished t
  trace : (call known fuel site.f site.args site.pos).trace site.state <:+ x.trace m

/-- Whether the second run does the same as the first, with faults at certain places if they are at
known places; or the first goes wrong inside a function, and the second says nothing about it. -/
def Quietens (known : Nat → Option CType) (fuel : Nat) (T : Position → Prop) (x x' : Run α) :
    Prop :=
  ∀ m,
    (x'.exec m = x.exec m ∧
      ∀ cause pos t, x.exec m = .error (.fault cause (some pos)) t → T pos) ∨
    ∃ stop t site, x.exec m = .error stop t ∧ x'.exec m = .error .unfinished t ∧
      GoesWrongIn known fuel x m site stop t

theorem FaultsAt.quietens {x : Run α} (hx : FaultsAt T x) : Quietens known fuel T x x :=
  fun m => .inl ⟨rfl, hx m⟩

namespace Quietens

variable {x x' : Run α} {f f' : α → Run β}

theorem bind (hx : Quietens known fuel T x x') (hf : ∀ a, Quietens known fuel T (f a) (f' a)) :
    Quietens known fuel T (x >>= f) (x' >>= f') := by
  intro m
  rcases hx m with ⟨hsame, hplaced⟩ | ⟨stop, t, site, hexec, hexec', hwrong⟩
  · cases hexec : x.exec m with
    | ok a t =>
      have hexec' := hsame.trans hexec
      rw [Traced.exec_bind_of_ok f hexec, Traced.exec_bind_of_ok f' hexec']
      refine (hf a t).imp_right ?_
      rintro ⟨stop, u, site, hstop, hstop', hwrong⟩
      refine ⟨stop, u, site, hstop, hstop', hwrong.exec, hwrong.quiet, ?_⟩
      rw [Traced.trace_bind_of_ok f hexec]
      exact hwrong.trace.trans (List.suffix_append _ _)
    | error stop t =>
      have hexec' := hsame.trans hexec
      rw [Traced.exec_bind_of_error f hexec, Traced.exec_bind_of_error f' hexec']
      refine .inl ⟨rfl, fun cause pos u h => ?_⟩
      cases h
      exact hplaced cause pos _ hexec
  · refine .inr ⟨stop, t, site, Traced.exec_bind_of_error f hexec,
      Traced.exec_bind_of_error f' hexec', hwrong.exec, hwrong.quiet, ?_⟩
    rw [Traced.trace_bind_of_error f hexec]
    exact hwrong.trace

theorem observe {f f' : Machine → Run α} (hf : ∀ m, Quietens known fuel T (f m) (f' m)) :
    Quietens known fuel T (get >>= f) (get >>= f') :=
  bind (FaultsAt.quietens fun _ _ _ _ h => by cases h) hf

/-- A run that goes on with a step without calls. -/
theorem andThen (hx : Quietens known fuel T x x') (hf : ∀ a, FaultsAt T (f a)) :
    Quietens known fuel T (x >>= f) (x' >>= f) :=
  hx.bind fun a => (hf a).quietens

end Quietens

/-- A step without calls, and then a run. -/
theorem FaultsAt.before {x : Run α} {f f' : α → Run β} (hx : FaultsAt T x)
    (hf : ∀ a, Quietens known fuel T (f a) (f' a)) : Quietens known fuel T (x >>= f) (x >>= f') :=
  hx.quietens.bind hf

/-! ## Calls -/

theorem exec_mapError_of_ok (g : Stop → Stop) {x : Run α} {m t : Machine} {a : α}
    (h : x.exec m = .ok a t) : (x.mapError g).exec m = .ok a t := by
  simp only [Traced.mapError, h]

theorem exec_mapError_of_error (g : Stop → Stop) {x : Run α} {m t : Machine} {stop : Stop}
    (h : x.exec m = .error stop t) : (x.mapError g).exec m = .error (g stop) t := by
  simp only [Traced.mapError, h]

theorem exec_inCall_of_ok (name : String) {x : Run α} {m t : Machine} {a : α}
    (h : x.exec (m.enterCall name) = .ok a t) :
    (inCall name x).exec m = .ok a (t.leaveCall m.current) := by
  rw [inCall, Traced.exec_bind_of_ok _ (Traced.exec_get m)]
  simp only [Traced.between, h]

theorem exec_inCall_of_error (name : String) {x : Run α} {m t : Machine} {stop : Stop}
    (h : x.exec (m.enterCall name) = .error stop t) :
    (inCall name x).exec m = .error stop (t.leaveCall m.current) := by
  rw [inCall, Traced.exec_bind_of_ok _ (Traced.exec_get m)]
  simp only [Traced.between, h]

theorem exec_call_of_begins (known : Nat → Option CType) (fuel : Nat) {f : FunctionDef}
    {args : List Value} (pos : Option Position) {m : Machine} (hargs : args.length = f.params.length) (hdepth : m.depth < maxDepth) :
    (call known (fuel + 1) f args pos).exec m =
        (inCall f.name (inside known fuel f args) >>= callResult f pos).exec m ∧
      (quietCall known (fuel + 1) f args pos).exec m =
        ((inCall f.name (inside known fuel f args)).mapError (fun _ => .unfinished) >>= fun signal =>
          match signal with
          | .goto _ => throw .unfinished
          | signal => callResult f pos signal).exec m := by
  constructor
  · rw [call, if_neg (not_not.mpr hargs), Traced.exec_bind_of_ok _ (Traced.exec_get m)]
    dsimp only
    rw [if_neg (Nat.not_le.mpr hdepth)]
    rfl
  · rw [quietCall, if_neg (not_not.mpr hargs), Traced.exec_bind_of_ok _ (Traced.exec_get m)]
    dsimp only
    rw [if_neg (Nat.not_le.mpr hdepth)]

theorem exec_call_of_not_begins (known : Nat → Option CType) (fuel : Nat) {f : FunctionDef}
    {args : List Value} (pos : Option Position) {m : Machine}
    (h : ¬(args.length = f.params.length ∧ m.depth < maxDepth)) :
    ∃ cause, (call known (fuel + 1) f args pos).exec m = .error (.fault cause pos) m ∧
      (quietCall known (fuel + 1) f args pos).exec m = .error (.fault cause pos) m := by
  by_cases hargs : args.length = f.params.length
  · have hdepth : maxDepth ≤ m.depth := Nat.not_lt.mp fun hn => h ⟨hargs, hn⟩
    refine ⟨.callOverflow, ?_, ?_⟩
    · rw [call, if_neg (not_not.mpr hargs), Traced.exec_bind_of_ok _ (Traced.exec_get m)]
      dsimp only
      rw [if_pos hdepth]
      rfl
    · rw [quietCall, if_neg (not_not.mpr hargs), Traced.exec_bind_of_ok _ (Traced.exec_get m)]
      dsimp only
      rw [if_pos hdepth]
      rfl
  · refine ⟨.wrongArgumentCount f.name, ?_, ?_⟩
    · rw [call, if_pos hargs]
      rfl
    · rw [quietCall, if_pos hargs]
      rfl

theorem quietens_call {pos : Position} (hpos : T pos) (f : FunctionDef) (args : List Value) :
    Quietens known fuel T (call known fuel f args (some pos))
      (quietCall known fuel f args (some pos)) := by
  intro m
  cases fuel with
  | zero => exact .inl ⟨rfl, fun _ _ _ h => by cases h⟩
  | succ fuel =>
    by_cases hbegins : args.length = f.params.length ∧ m.depth < maxDepth
    · obtain ⟨hcall, hquiet⟩ := exec_call_of_begins known fuel (some pos) hbegins.1 hbegins.2
      cases hin : (inCall f.name (inside known fuel f args)).exec m with
      | error stop t =>
        rw [Traced.exec_bind_of_error _ hin] at hcall
        rw [Traced.exec_bind_of_error _ (exec_mapError_of_error _ hin)] at hquiet
        exact .inr ⟨stop, t, ⟨f, args, some pos, m⟩, hcall, hquiet, hcall, hquiet, List.suffix_rfl⟩
      | ok signal t =>
        rw [Traced.exec_bind_of_ok _ hin] at hcall
        rw [Traced.exec_bind_of_ok _ (exec_mapError_of_ok _ hin)] at hquiet
        by_cases hsignal : ∃ label, signal = .goto label
        · obtain ⟨label, rfl⟩ := hsignal
          exact .inr ⟨_, t, ⟨f, args, some pos, m⟩, hcall, hquiet, hcall, hquiet, List.suffix_rfl⟩
        · have hstays : ∀ label, signal ≠ .goto label := fun label h => hsignal ⟨label, h⟩
          refine .inl ⟨?_, fun cause q u h => ?_⟩
          · rw [hquiet, hcall]
            cases signal with
            | goto label => exact absurd rfl (hstays label)
            | _ => rfl
          · rw [hcall] at h
            exact faultsAt_callResult f (forall_mem_some hpos) hstays t cause q u h
    · obtain ⟨cause, hcall, hquiet⟩ := exec_call_of_not_begins known fuel (some pos) hbegins
      refine .inl ⟨hquiet.trans hcall.symm, fun cause q t h => ?_⟩
      rw [hcall] at h
      cases h
      exact hpos

/-- What a call of an expression leads to, where its arguments are evaluated in both ways. -/
theorem quietens_invoke {callee : Expr} (hcallee : PlacedAt T callee.occurrences)
    {first first' : Option (Run Value)} {args args' : Run (List Value)}
    (hfirst : Option.Rel (Quietens known fuel T) first first')
    (hargs : Quietens known fuel T args args') :
    Quietens known fuel T (invoke (.telling known fuel) callee first args)
      (invoke (.quiet known fuel) callee first' args') := by
  cases callee with
  | identifier leaf =>
    have hpos : T leaf.token.pos := hcallee.pos
    refine .observe fun m => ?_
    cases m.functions.lookup leaf.token.id with
    | some f => exact hargs.bind fun args => quietens_call hpos f args
    | none =>
      dsimp only
      split
      · refine Quietens.andThen ?_ fun v => .pure _
        cases hfirst with
        | none => exact (FaultsAt.failAt _ hpos).quietens
        | some hfirst => exact hfirst.andThen fun v => placeless_faultsAt.print v
      · refine .observe fun m => FaultsAt.quietens ?_
        split
        · exact .failAt _ hpos
        · exact .failAt _ hpos
  | _ => exact (FaultsAt.failAt _ hcallee.pos).quietens

/-! ## Expressions -/

mutual

theorem quietens_eval (e : Expr) (h : PlacedAt T e.occurrences) :
    Quietens known fuel T (eval (.telling known fuel) e) (eval (.quiet known fuel) e) := by
  cases e with
  | identifier leaf =>
    have hplace : FaultsAt T (variablePlace leaf.token) := faultsAt_variablePlace h.pos
    have hread := hplace.bind fun place => placeless_faultsAt.read place
    exact ((FaultsAt.note _).bind fun _ => hread).quietens
  | literal leaf kind => exact (faultsAt_literal leaf kind).quietens
  | parens e =>
    rw [eval, eval]
    exact quietens_eval e h.of_cons
  | unary op e =>
    have he := PlacedAt.of_cons h
    cases op with
    | address =>
      rw [eval, eval]
      exact (quietens_place none e he).andThen fun place => placeless_faultsAt.address place
    | _ =>
      rw [eval, eval]
      · exact (quietens_eval e he).andThen fun v => faultsAt_unary _ v he.pos
      all_goals exact fun h => by cases h
  | step op e =>
    have he := PlacedAt.of_cons h
    rw [eval, eval]
    exact (quietens_place none e he).andThen fun place => faultsAt_step op place he.pos
  | binary op left right =>
    have hleft := quietens_eval left h.of_cons.left
    have hright := quietens_eval right h.of_cons.right
    cases op with
    | arith op =>
      rw [eval, eval]
      refine hleft.bind fun l => hright.andThen fun r => ?_
      exact faultsAt_arith op l r h.of_cons.left.pos
    | relation op =>
      rw [eval, eval]
      refine hleft.bind fun l => hright.andThen fun r => ?_
      exact (FaultsAt.lift _).bind fun b => .pure _
    | logic op =>
      rw [eval, eval]
      -- The truth of a value is found without a place, so both runs stop there alike.
      refine hleft.bind fun l => (FaultsAt.lift _).before fun l => ?_
      split
      · exact (FaultsAt.pure _).quietens
      · exact hright.andThen fun r => (FaultsAt.lift _).bind fun b => .pure _
  | assign op left right =>
    have hpos : T left.pos := h.of_cons.left.pos
    have hright := quietens_eval right h.of_cons.right
    cases op with
    | none =>
      rw [eval, eval]
      refine hright.bind fun v => (quietens_place (some v) left h.of_cons.left).andThen ?_
      exact fun place => faultsAt_assign place v (forall_mem_some hpos)
    | some op =>
      rw [eval, eval]
      refine hright.bind fun v => (quietens_place none left h.of_cons.left).andThen ?_
      exact fun place => faultsAt_update op place v hpos
  | conditional cond first second =>
    rw [eval, eval]
    refine (quietens_eval cond h.of_cons.left).bind fun v => (FaultsAt.lift _).before fun b => ?_
    split
    · exact quietens_eval first h.of_cons.right.left
    · exact quietens_eval second h.of_cons.right.right
  | call callee args =>
    have hcallee := PlacedAt.left h.of_cons
    have hargs := PlacedAt.right h.of_cons
    have hfirst : Option.Rel (Quietens known fuel T) (evalFirst (.telling known fuel) args)
        (evalFirst (.quiet known fuel) args) := by
      cases args with
      | nil => exact .none
      | cons e rest => exact .some (quietens_eval e hargs.left)
    rw [eval, eval]
    refine (quietens_invoke hcallee hfirst (quietens_evalAll args hargs)).andThen fun v => ?_
    -- A call without a result is blamed on the callee.
    cases v with
    | none => exact .failAt _ hcallee.pos
    | some v => exact .pure v
  | index base place =>
    rw [eval, eval]
    refine (quietens_eval base h.of_cons.left).bind fun b => ?_
    refine (quietens_eval place h.of_cons.right).andThen fun i => ?_
    exact (faultsAt_element h.of_cons.left.pos b i).bind fun place => placeless_faultsAt.read place
  | member e field =>
    rw [eval, eval]
    refine (quietens_eval e h.of_cons).andThen fun v => ?_
    have hfield : T field.token.pos := h.head List.mem_cons_self
    exact (faultsAt_member h.of_cons.pos hfield v).bind fun place => placeless_faultsAt.read place
  | arrow e field =>
    rw [eval, eval]
    refine (quietens_eval e h.of_cons).andThen fun v => ?_
    have hfield : T field.token.pos := h.head List.mem_cons_self
    exact (faultsAt_arrow h.of_cons.pos hfield v).bind fun place => placeless_faultsAt.read place
  | sizeOf type =>
    rw [eval, eval]
    exact (faultsAt_sizeNamed _ h.of_cons.type).quietens
  | cast type e =>
    have htype : T type.first.pos := h.of_cons.type
    rw [eval, eval]
    refine (faultsAt_resolve known htype).before fun t => ?_
    refine (quietens_eval e h.of_cons.of_cons).andThen fun v => ?_
    exact faultsAt_convert t v (forall_mem_some htype)
  | list head tail =>
    rw [eval, eval]
    exact (FaultsAt.failAt _ h.of_cons.left.pos).quietens

theorem quietens_place (new : Option Value) (e : Expr) (h : PlacedAt T e.occurrences) :
    Quietens known fuel T (place (.telling known fuel) new e) (place (.quiet known fuel) new e) := by
  cases e with
  | identifier leaf =>
    refine ((FaultsAt.note _).bind fun _ => ?_).quietens
    cases new with
    | none => exact faultsAt_variablePlace h.pos
    | some v => exact faultsAt_variableFor h.pos v
  | parens e =>
    rw [place, place]
    exact quietens_place new e h.of_cons
  | unary op e =>
    have he := PlacedAt.of_cons h
    cases op with
    | deref =>
      rw [place, place]
      exact (quietens_eval e he).andThen fun v => faultsAt_target he.pos v
    | _ => exact (FaultsAt.failAt _ (PlacedAt.pos h)).quietens
  | index base i =>
    rw [place, place]
    refine (quietens_eval base h.of_cons.left).bind fun b => ?_
    refine (quietens_eval i h.of_cons.right).andThen fun i => ?_
    exact faultsAt_element h.of_cons.left.pos b i
  | member e field =>
    rw [place, place]
    refine (quietens_eval e h.of_cons).andThen fun v => ?_
    exact faultsAt_member h.of_cons.pos (h.head List.mem_cons_self) v
  | arrow e field =>
    rw [place, place]
    refine (quietens_eval e h.of_cons).andThen fun v => ?_
    exact faultsAt_arrow h.of_cons.pos (h.head List.mem_cons_self) v
  | _ => exact (FaultsAt.failAt _ (PlacedAt.pos h)).quietens

theorem quietens_evalAll (args : List Expr)
    (h : PlacedAt T (Expr.occurrences.occurrencesAll args)) :
    Quietens known fuel T (evalAll (.telling known fuel) args)
      (evalAll (.quiet known fuel) args) := by
  cases args with
  | nil =>
    rw [evalAll, evalAll]
    exact (FaultsAt.pure _).quietens
  | cons e rest =>
    rw [evalAll, evalAll]
    refine (quietens_eval e h.left).bind fun v => ?_
    exact (quietens_evalAll rest h.right).andThen fun vs => .pure _

end

theorem quietens_evalCall {callee : Expr} {args : List Expr}
    (hcallee : PlacedAt T callee.occurrences)
    (hargs : PlacedAt T (Expr.occurrences.occurrencesAll args)) :
    Quietens known fuel T (evalCall (.telling known fuel) callee args)
      (evalCall (.quiet known fuel) callee args) := by
  refine quietens_invoke hcallee ?_ (quietens_evalAll args hargs)
  cases args with
  | nil => exact .none
  | cons e rest => exact .some (quietens_eval e hargs.left)

/-! ## Initializers -/

theorem quietens_sizesOf (needed : Nat) {dims : List Dim}
    (h : PlacedAt T (dims.flatMap Dim.occurrences)) :
    Quietens known fuel T (sizesOf (eval (.telling known fuel)) needed dims)
      (sizesOf (eval (.quiet known fuel)) needed dims) := by
  induction dims generalizing needed with
  | nil => exact (FaultsAt.pure _).quietens
  | cons dim rest ih =>
    rw [List.flatMap_cons] at h
    have hrest := ih 0 h.right
    cases dim with
    | unsized => exact hrest.andThen fun sizes => .pure _
    | sized size =>
      have hfail {α : Type} : FaultsAt T (failAt .invalidArraySize size.pos : Run α) :=
        .failAt _ (PlacedAt.pos h.left)
      refine (quietens_eval size h.left).bind fun v => ?_
      cases v with
      | int n =>
        dsimp only
        split
        · exact hfail.quietens
        · exact hrest.andThen fun sizes => .pure _
      | _ => exact hfail.quietens

theorem quietens_arraySizes {d : Declarator} (h : PlacedAt T d.occurrences) (init : Option Expr) :
    Quietens known fuel T (arraySizes (eval (.telling known fuel)) d init)
      (arraySizes (eval (.quiet known fuel)) d init) := by
  unfold arraySizes
  split
  · exact (FaultsAt.failAt _ h.type).quietens
  · exact quietens_sizesOf _ h.of_cons.left

theorem quietens_itemValue (t : CType) {item : Expr} (h : PlacedAt T item.occurrences) :
    Quietens known fuel T (itemValue (eval (.telling known fuel)) t item)
      (itemValue (eval (.quiet known fuel)) t item) :=
  (quietens_eval item h).andThen fun v => faultsAt_convert t v (forall_mem_some h.pos)

theorem quietens_fillFlat (array : Pointer) (elem : CType) (length i : Nat) {items : List Expr}
    (h : PlacedAt T (Expr.occurrences.occurrencesAll items)) :
    Quietens known fuel T (fillFlat (eval (.telling known fuel)) array elem length i items)
      (fillFlat (eval (.quiet known fuel)) array elem length i items) := by
  induction items generalizing i with
  | nil => exact (FaultsAt.pure _).quietens
  | cons item rest ih =>
    refine (placeless_faultsAt.rowAt _).before fun row => ?_
    refine (quietens_itemValue elem h.left).bind fun v => ?_
    exact FaultsAt.before (placeless_faultsAt.store _ v) fun _ => ih (i + 1) h.right

theorem quietens_fillSlot (slot : Pointer) (elem : CType) (isRow : Bool) {item : Expr}
    (h : PlacedAt T item.occurrences) {fillRow fillRow' : Pointer → Run Unit}
    {fillRecord fillRecord' : Nat → Run Unit}
    (hrow : ∀ row, Quietens known fuel T (fillRow row) (fillRow' row))
    (hrecord : ∀ id, Quietens known fuel T (fillRecord id) (fillRecord' id)) :
    Quietens known fuel T
      (fillSlot (eval (.telling known fuel)) slot elem isRow item fillRow fillRecord)
      (fillSlot (eval (.quiet known fuel)) slot elem isRow item fillRow' fillRecord') := by
  have hstore (v : Value) : FaultsAt T (store slot v) := placeless_faultsAt.store slot v
  unfold fillSlot
  split
  · exact (placeless_faultsAt.rowAt slot).before hrow
  · split
    · refine (placeless_faultsAt.zeroValue elem).before fun v => ?_
      cases v with
      | record id => exact (hrecord id).andThen fun _ => hstore _
      | _ => exact (hstore _).quietens
    · exact (quietens_itemValue elem h).andThen hstore

theorem quietens_fillField (id : Nat) (field : Field) {item : Expr}
    (h : PlacedAt T item.occurrences)
    {fillArray fillArray' : Pointer → CType → List Nat → Run Unit}
    (harray : ∀ array elem sizes,
      Quietens known fuel T (fillArray array elem sizes) (fillArray' array elem sizes)) :
    Quietens known fuel T (fillField (eval (.telling known fuel)) id field item fillArray)
      (fillField (eval (.quiet known fuel)) id field item fillArray') := by
  unfold fillField
  cases field.bounds with
  | none => exact (quietens_itemValue _ h).andThen fun v => placeless_faultsAt.write v _
  | some dims =>
    refine FaultsAt.before (placeless_faultsAt.read _) fun v => ?_
    cases v with
    | pointer array =>
      refine FaultsAt.before ?_ fun elem => harray array elem dims
      unfold elementType
      split
      · rintro m cause pos t ⟨⟩
      · exact .pure _
    | _ => exact (FaultsAt.failNowhere _).quietens

mutual

theorem quietens_fillArray (array : Pointer) (elem : CType) (sizes : List Nat) (init : Expr)
    (h : PlacedAt T init.occurrences) :
    Quietens known fuel T (fillArray (eval (.telling known fuel)) array elem sizes init)
      (fillArray (eval (.quiet known fuel)) array elem sizes init) := by
  by_cases hlist : init.items? = none
  · rw [fillArray_of_not_list _ _ _ _ hlist, fillArray_of_not_list _ _ _ _ hlist]
    refine FaultsAt.quietens ?_
    split
    · rename_i token size hstring
      obtain ⟨leaf, rfl, rfl⟩ := string?_eq_some hstring
      exact faultsAt_fillString array size h.pos
    · exact .failAt _ h.pos
  · cases init with
    | list head tail =>
      have hhead := PlacedAt.left h.of_cons
      have hfail : FaultsAt T (failAt .tooManyInitializers head.pos : Run Unit) :=
        .failAt _ (PlacedAt.pos hhead)
      rw [fillArray, fillArray]
      split
      · split
        · exact hfail.quietens
        · have hitems : PlacedAt T (Expr.occurrences.occurrencesAll (head :: tail)) := h.of_cons
          exact quietens_fillFlat array elem _ 0 hitems
      · split
        · exact hfail.quietens
        · refine (quietens_fillSlot array elem _ hhead ?_ ?_).bind fun _ => ?_
          · exact fun row => quietens_fillArray row elem sizes.tail head hhead
          · exact fun id => quietens_fillRecord id elem head hhead
          · exact quietens_fillSlots (array.moved 1) elem sizes tail h.of_cons.right
    | _ => exact absurd rfl hlist

theorem quietens_fillSlots (slot : Pointer) (elem : CType) (sizes : List Nat) (items : List Expr)
    (h : PlacedAt T (Expr.occurrences.occurrencesAll items)) :
    Quietens known fuel T (fillSlots (eval (.telling known fuel)) slot elem sizes items)
      (fillSlots (eval (.quiet known fuel)) slot elem sizes items) := by
  cases items with
  | nil => exact (FaultsAt.pure _).quietens
  | cons item rest =>
    have hitem := PlacedAt.left h
    rw [fillSlots, fillSlots]
    refine (quietens_fillSlot slot elem _ hitem ?_ ?_).bind fun _ => ?_
    · exact fun row => quietens_fillArray row elem sizes.tail item hitem
    · exact fun id => quietens_fillRecord id elem item hitem
    · exact quietens_fillSlots (slot.moved 1) elem sizes rest h.right

theorem quietens_fillRecord (id : Nat) (t : CType) (init : Expr) (h : PlacedAt T init.occurrences) :
    Quietens known fuel T (fillRecord (eval (.telling known fuel)) id t init)
      (fillRecord (eval (.quiet known fuel)) id t init) := by
  cases init with
  | list head tail =>
    have hhead := PlacedAt.left h.of_cons
    have hfill (m : Machine) : Quietens known fuel T
        (match m.structs.currentFields t with
          | [] => pure ()
          | field :: fields => do
            fillField (eval (.telling known fuel)) id field head
              (fun array elem sizes => fillArray (eval (.telling known fuel)) array elem sizes head)
            fillFields (eval (.telling known fuel)) id fields tail)
        (match m.structs.currentFields t with
          | [] => pure ()
          | field :: fields => do
            fillField (eval (.quiet known fuel)) id field head
              (fun array elem sizes => fillArray (eval (.quiet known fuel)) array elem sizes head)
            fillFields (eval (.quiet known fuel)) id fields tail) := by
      cases m.structs.currentFields t with
      | nil => exact (FaultsAt.pure _).quietens
      | cons field fields =>
        refine (quietens_fillField id field hhead ?_).bind fun _ => ?_
        · exact fun array elem sizes => quietens_fillArray array elem sizes head hhead
        · exact quietens_fillFields id fields tail h.of_cons.right
    rw [fillRecord, fillRecord]
    refine .observe fun m => ?_
    dsimp only
    split
    · exact FaultsAt.before (.failAt _ (PlacedAt.pos hhead)) fun _ => hfill m
    · exact hfill m
  | _ => exact (FaultsAt.pure _).quietens

theorem quietens_fillFields (id : Nat) (fields : List Field) (items : List Expr)
    (h : PlacedAt T (Expr.occurrences.occurrencesAll items)) :
    Quietens known fuel T (fillFields (eval (.telling known fuel)) id fields items)
      (fillFields (eval (.quiet known fuel)) id fields items) := by
  cases items with
  | nil => cases fields <;> exact (FaultsAt.pure _).quietens
  | cons item rest =>
    cases fields with
    | nil => exact (FaultsAt.pure _).quietens
    | cons field fields =>
      have hitem := PlacedAt.left h
      rw [fillFields, fillFields]
      refine (quietens_fillField id field hitem ?_).bind fun _ => ?_
      · exact fun array elem sizes => quietens_fillArray array elem sizes item hitem
      · exact quietens_fillFields id fields rest h.right

end

/-! ## Declarations -/

theorem quietens_declareArray {d : Declarator} (h : PlacedAt T d.occurrences) (elem : CType) :
    Quietens known fuel T (declareArray (.telling known fuel) d elem)
      (declareArray (.quiet known fuel) d elem) := by
  refine (quietens_arraySizes h d.init).bind fun sizes => ?_
  refine FaultsAt.before ((faultsAt_resolve known h.type).bind fun _ => .pure _) fun t => ?_
  refine FaultsAt.before ?_ fun array => ?_
  · exact placeless_faultsAt.newArrayOf (fun values => .modifyGet _)
      (placeless_faultsAt.zeroValue elem) elem sizes
  have hintroduce : FaultsAt T (introduce d.name t (.pointer array)) := faultsAt_introduce _ _ _
  cases hinit : d.init with
  | none => exact hintroduce.quietens
  | some init =>
    have hplaced := h.of_cons.right
    rw [hinit, Option.toList_some, List.flatMap_singleton] at hplaced
    exact (quietens_fillArray array elem sizes init hplaced).andThen fun _ => hintroduce

theorem faultsAt_declareZero {d : Declarator} (h : PlacedAt T d.occurrences) (t : CType) :
    FaultsAt T (declareZero d t) := by
  have hzero : FaultsAt T (do introduce d.name t (← zeroValue t)) :=
    (placeless_faultsAt.zeroValue t).bind fun v => faultsAt_introduce _ _ v
  unfold declareZero
  split
  · exact (FaultsAt.failAt _ h.type).bind fun _ => hzero
  · exact hzero

theorem quietens_declareRecord (d : Declarator) (t : CType) {init : Expr}
    (h : PlacedAt T init.occurrences) :
    Quietens known fuel T (declareRecord (.telling known fuel) d t init)
      (declareRecord (.quiet known fuel) d t init) := by
  have hfill : Quietens known fuel T
      (do
        let v ← zeroValue t
        fillStruct (.telling known fuel) t init v
        introduce d.name t v)
      (do
        let v ← zeroValue t
        fillStruct (.quiet known fuel) t init v
        introduce d.name t v) := by
    refine (placeless_faultsAt.zeroValue t).before fun v => ?_
    refine Quietens.andThen ?_ fun _ => faultsAt_introduce _ _ v
    cases v with
    | record id => exact quietens_fillRecord id t init h
    | _ => exact (FaultsAt.pure _).quietens
  unfold declareRecord
  split
  · exact FaultsAt.before (.failAt _ h.pos) fun _ => hfill
  · exact hfill

theorem quietens_declareValue (d : Declarator) (t : CType) {init : Expr}
    (h : PlacedAt T init.occurrences) :
    Quietens known fuel T (declareValue (.telling known fuel) d t init)
      (declareValue (.quiet known fuel) d t init) := by
  refine (quietens_eval init h).andThen fun v => ?_
  have hpos := forall_mem_some h.pos
  have hintroduce (t : CType) : FaultsAt T (do introduce d.name t (← convert t v (some init.pos))) :=
    (faultsAt_convert t v hpos).bind fun v => faultsAt_introduce _ _ v
  dsimp only
  split
  · exact (faultsAt_typeOfValue hpos v).bind hintroduce
  · exact (FaultsAt.pure t).bind hintroduce

theorem quietens_declarator {d : Declarator} (h : PlacedAt T d.occurrences) :
    Quietens known fuel T (declarator (.telling known fuel) d)
      (declarator (.quiet known fuel) d) := by
  refine FaultsAt.before (faultsAt_resolve known h.type) fun t => ?_
  split
  · exact quietens_declareArray h t
  · cases hinit : d.init with
    | none => exact (faultsAt_declareZero h t).quietens
    | some init =>
      have hplaced := h.of_cons.right
      rw [hinit, Option.toList_some, List.flatMap_singleton] at hplaced
      dsimp only
      split
      · exact quietens_declareRecord d t hplaced
      · exact quietens_declareValue d t hplaced

theorem quietens_declaration {d : Declaration} (h : PlacedAt T d.occurrences) :
    Quietens known fuel T (declaration (.telling known fuel) d)
      (declaration (.quiet known fuel) d) := by
  unfold declaration
  unfold Declaration.occurrences at h
  generalize d.all = ds at h ⊢
  induction ds with
  | nil => exact (FaultsAt.pure _).quietens
  | cons d rest ih =>
    rw [List.flatMap_cons] at h
    exact (quietens_declarator h.left).bind fun _ => ih h.right

/-! ## Instructions -/

theorem quietens_bareInstr {i : Instr} (h : PlacedAt T i.occurrences) :
    Quietens known fuel T (bareInstr (.telling known fuel) i) (bareInstr (.quiet known fuel) i) := by
  cases i with
  | expr e =>
    have heval : Quietens known fuel T
        (do
          let _ ← eval (.telling known fuel) e
          pure Signal.normal)
        (do
          let _ ← eval (.quiet known fuel) e
          pure Signal.normal) :=
      (quietens_eval e h).andThen fun _ => .pure _
    cases e with
    | call callee args =>
      exact (quietens_evalCall (PlacedAt.left h.of_cons) (PlacedAt.right h.of_cons)).andThen
        fun _ => .pure _
    | _ => exact heval
  | declare d => exact (quietens_declaration h).andThen fun _ => .pure _
  | «break» token | «continue» token | goto label => exact (FaultsAt.pure _).quietens
  | «return» value =>
    cases value with
    | none => exact (FaultsAt.pure _).quietens
    | some e =>
      rw [Instr.occurrences, Option.toList_some, List.flatMap_singleton] at h
      exact (quietens_eval e h).andThen fun _ => .pure _

theorem quietens_instrValue {i : Instr} (h : PlacedAt T i.occurrences) (hpos : ∀ q ∈ i.pos?, T q) :
    Quietens known fuel T (instrValue (.telling known fuel) i)
      (instrValue (.quiet known fuel) i) := by
  cases i with
  | expr e => exact quietens_eval e h
  | _ => exact (FaultsAt.fail _ hpos).quietens

end Run

end MiniC
