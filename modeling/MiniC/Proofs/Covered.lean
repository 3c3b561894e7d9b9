import MiniC.Proofs.Recorded

set_option autoImplicit false

/-! # What an accepted analysis has looked at

The analysis of a program goes through only if it looks at every expression that a run may come to.
-/

namespace MiniC

/-! ## Expressions that a run may come to -/

/-- Whether an expression has operands or a type name as its parts, and is no list. -/
def Expr.isComposite : Expr → Bool
  | .identifier _ => false
  | .literal _ _ => false
  | .list _ _ => false
  | _ => true

namespace Check

open Traced

variable {α β : Type} {l l' : List Occurrence}

/-! ## Steps that look at expressions -/

/-- Whether a step of the analysis that begins in a state looks at an expression on the way, and
finds a type of it. -/
def Looks (x : Check α) (a : Analysis) (e : Expr) : Prop :=
  ∃ b ∈ x.states a, ∃ t b', (exprType e).exec b = .ok t b' ∧ (exprType e).trace b <:+: x.trace a

/-- Whether a step of the analysis goes through only if it looks at all composite expressions among
the given occurrences. -/
structure Covers (x : Check α) (l : List Occurrence) : Prop where
  recorded : Recorded x
  looks : ∀ a r a', x.exec a = .ok r a' → ∀ e, e.isComposite → .expr e ∈ l → Looks x a e

/-- The second of two steps covers what it does after the first had a result. -/
theorem Covers.bind_of_ok {x : Check α} {f : α → Check β} (hx : Covers x l)
    (hrecorded : ∀ r, Recorded (f r)) (hf : ∀ a r t, x.exec a = .ok r t → Covers (f r) l') :
    Covers (x >>= f) (l ++ l') := by
  refine ⟨hx.recorded.bind hrecorded, fun a r a' h e he hmem => ?_⟩
  obtain ⟨b, t, hb, hr, -⟩ := exec_bind_eq_ok h
  rcases List.mem_append.mp hmem with hmem | hmem
  · obtain ⟨c, hc, type, c', hexec, htrace⟩ := hx.looks a b t hb e he hmem
    refine ⟨c, hx.recorded.states_subset_bind f hc, type, c', hexec, ?_⟩
    rw [trace_bind_of_ok f hb]
    exact htrace.trans (List.prefix_append _ _).isInfix
  · obtain ⟨c, hc, type, c', hexec, htrace⟩ := (hf a b t hb).looks t r a' hr e he hmem
    refine ⟨c, hx.recorded.states_subset_of_ok f hb hc, type, c', hexec, ?_⟩
    rw [trace_bind_of_ok f hb]
    exact htrace.trans (List.suffix_append _ _).isInfix

theorem Covers.bind {x : Check α} {f : α → Check β} (hx : Covers x l)
    (hf : ∀ r, Covers (f r) l') : Covers (x >>= f) (l ++ l') :=
  hx.bind_of_ok (fun r => (hf r).recorded) fun _ r _ _ => hf r

/-- A step without composite expressions. -/
theorem Covers.of_plain {x : Check α} (hx : Recorded x)
    (h : ∀ e, e.isComposite → .expr e ∉ l) : Covers x l :=
  ⟨hx, fun _ _ _ _ e he hmem => absurd hmem (h e he)⟩

theorem covers_nil {x : Check α} (hx : Recorded x) : Covers x [] :=
  .of_plain hx fun _ _ => List.not_mem_nil

/-- What comes after a step that covers what there is to be covered. -/
theorem Covers.before {x : Check α} {f : α → Check β} (hx : Covers x l)
    (hf : ∀ r, Recorded (f r)) : Covers (x >>= f) l := by
  have h := hx.bind fun r => covers_nil (hf r)
  rwa [List.append_nil] at h

/-- What comes before a step that covers what there is to be covered. -/
theorem Covers.after {x : Check α} {f : α → Check β} (hf : ∀ r, Covers (f r) l)
    (hx : Recorded x) : Covers (x >>= f) l :=
  (covers_nil hx).bind hf

theorem covers_fail {cause : SemanticCause} {pos : Option Position} :
    Covers (fail cause pos : Check α) l :=
  ⟨closed_recorded.fail _ _, fun _ _ _ h => by cases h⟩

/-- A step that ends with an error in one case, and goes on in the other one. -/
theorem Covers.reject {c : Prop} [Decidable c] {cause : SemanticCause} {pos : Position}
    {f : α → Check β} {x : Check β} (hx : Covers x l) :
    Covers (if c then failAt cause pos >>= f else x) l := by
  split
  · exact ⟨fun _ => List.mem_cons_self, fun _ _ _ h => by cases h⟩
  · exact hx

theorem Covers.type_cons {x : Check α} (hx : Covers x l) (name : TypeName) :
    Covers x (.type name :: l) := by
  refine ⟨hx.recorded, fun a r a' h e he hmem => hx.looks a r a' h e he ?_⟩
  rcases List.mem_cons.mp hmem with hmem | hmem
  · cases hmem
  · exact hmem

/-- The same step for each thing of a list. -/
theorem covers_forM {γ : Type} {f : γ → Check PUnit} {occurrences : γ → List Occurrence}
    {cs : List γ} (hf : ∀ c ∈ cs, Covers (f c) (occurrences c)) :
    Covers (cs.forM f) (cs.flatMap occurrences) := by
  induction cs with
  | nil => exact covers_nil (closed_recorded.pure _)
  | cons c rest ih =>
    obtain ⟨hc, hrest⟩ := List.forall_mem_cons.mp hf
    rw [List.flatMap_cons]
    exact hc.bind fun _ => ih hrest

theorem covers_mapM {γ : Type} {f : γ → Check α} {occurrences : γ → List Occurrence}
    {cs : List γ} (hf : ∀ c ∈ cs, Covers (f c) (occurrences c)) :
    Covers (cs.mapM f) (cs.flatMap occurrences) := by
  induction cs with
  | nil =>
    rw [List.mapM_nil]
    exact covers_nil (closed_recorded.pure _)
  | cons c rest ih =>
    obtain ⟨hc, hrest⟩ := List.forall_mem_cons.mp hf
    rw [List.mapM_cons, List.flatMap_cons]
    exact hc.bind fun _ => (ih hrest).before fun _ => closed_recorded.pure _

theorem recorded_resolve (name : TypeName) : Recorded (resolve name) :=
  (composed_recorded [.type name]).resolve name List.mem_cons_self

/-! ## Expressions -/

/-- An expression is looked at first, and then its parts are. -/
theorem Covers.expr_cons {e : Expr} (h : Covers (exprType e) l)
    (he : e.occurrences = .expr e :: l) : Covers (exprType e) e.occurrences := by
  rw [he]
  refine ⟨h.recorded, fun a r a' hexec e' he' hmem => ?_⟩
  rcases List.mem_cons.mp hmem with heq | hmem
  · cases heq
    exact ⟨a, mem_states_start _ _, r, a', hexec, List.infix_rfl⟩
  · exact h.looks a r a' hexec e' he' hmem

theorem recorded_exprType (e : Expr) : Recorded (exprType e) :=
  (composed_recorded e.occurrences).exprType e (List.Subset.refl _)

/-- A name of the right number of parameters is what a call calls that is accepted. -/
theorem calledFunction_eq_ok {callee : Expr} {count : Nat} {f? : Option Signature}
    {a a' : Analysis} (h : (calledFunction callee count).exec a = .ok f? a') :
    ∃ leaf, callee = .identifier leaf ∧ a' = a ∧
      ((f? = none ∧ a.lookup leaf.token.id = none ∧ leaf.token.text = printName ∧ 0 < count) ∨
        ∃ f, f? = some f ∧ a.lookup leaf.token.id = some (.function f) ∧
          f.params.length = count ∧
          (calledFunction callee count).trace a = [⟨some (.meaning leaf (.function f)), a⟩]) := by
  cases callee with
  | identifier leaf =>
    refine ⟨leaf, rfl, ?_⟩
    obtain ⟨_, _, hget, hrest, -⟩ := exec_bind_eq_ok h
    cases hget
    cases hmeaning : a.lookup leaf.token.id with
    | none =>
      simp only [hmeaning] at hrest
      split_ifs at hrest with htext hcount
      · cases hrest
      · cases hrest
        exact ⟨rfl, .inl ⟨rfl, rfl, htext, Nat.pos_of_ne_zero hcount⟩⟩
      · cases hrest
    | some e =>
      rcases e with v | f
      · simp only [hmeaning] at hrest
        cases hrest
      · simp only [hmeaning] at hrest
        split_ifs at hrest with hmore hless
        · cases hrest
        · cases hrest
        · cases hrest
          refine ⟨rfl, .inr ⟨f, rfl, rfl, by omega, ?_⟩⟩
          rw [calledFunction, trace_bind_of_ok _ (exec_get a)]
          simp only [hmeaning, if_neg hmore, if_neg hless]
          rfl
  | _ => cases h

mutual

theorem covers_exprType (e : Expr) : Covers (exprType e) e.occurrences := by
  cases e with
  | identifier leaf =>
    refine .of_plain (recorded_exprType _) fun e he hmem => ?_
    cases List.mem_singleton.mp hmem
    cases he
  | literal leaf kind =>
    refine .of_plain (recorded_exprType _) fun e he hmem => ?_
    cases List.mem_singleton.mp hmem
    cases he
  | parens e =>
    refine Covers.expr_cons ?_ rfl
    rw [exprType]
    exact covers_exprType e
  | unary op e =>
    refine Covers.expr_cons ?_ rfl
    rw [exprType]
    exact .reject ((covers_exprType e).before fun t => closed_recorded.unaryType _ _ _ _)
  | step op e =>
    refine Covers.expr_cons ?_ rfl
    rw [exprType]
    refine .reject ((covers_exprType e).before fun t => ?_)
    exact closed_recorded.reject (closed_recorded.reject (closed_recorded.pure t))
  | binary op left right =>
    refine Covers.expr_cons ?_ rfl
    rw [exprType]
    refine (covers_exprType left).bind fun a => (covers_exprType right).before fun b => ?_
    exact closed_recorded.operatorType _ _ _ _
  | assign op left right =>
    refine Covers.expr_cons ?_ rfl
    rw [exprType]
    refine .reject ((covers_exprType left).bind fun a => .reject ?_)
    refine (covers_exprType right).before fun b => ?_
    -- What is left after both operands only records the cast, with an operator or without.
    have hrest (result : CType) : Recorded (do
        implicitCast .cast result a left.pos
        pure a : Check CType) :=
      closed_recorded.bind (closed_recorded.implicitCast _ _ _ _) fun _ => closed_recorded.pure a
    cases op with
    | none => exact closed_recorded.bind (closed_recorded.pure b) hrest
    | some op => exact closed_recorded.bind (closed_recorded.operatorType _ _ _ _) hrest
  | conditional cond first second =>
    refine Covers.expr_cons ?_ rfl
    rw [exprType]
    refine (covers_exprType cond).bind fun t => .after (fun _ => ?_) (closed_recorded.condition _ _)
    refine (covers_exprType first).bind fun a => (covers_exprType second).before fun b => ?_
    exact closed_recorded.widerType _ _ _ _
  | call callee args =>
    refine Covers.expr_cons ?_ rfl
    rw [exprType]
    have hcallee : Covers (calledFunction callee args.length) callee.occurrences := by
      refine ⟨(composed_recorded []).calledFunction _ _, fun a f? a' h e he hmem => ?_⟩
      obtain ⟨leaf, rfl, -⟩ := calledFunction_eq_ok h
      cases List.mem_singleton.mp hmem
      cases he
    -- Arguments are checked against the parameters if the callee was found, and on their own for
    -- `printf`; a callee that fits has as many parameters as there are arguments.
    refine hcallee.bind_of_ok (fun f? => ?_) fun a f? t h => ?_
    · have hargs := composed_recorded (Expr.occurrences.occurrencesAll args)
      cases f? with
      | none =>
        exact closed_recorded.bind (hargs.argTypes args (List.Subset.refl _)) fun _ =>
          closed_recorded.pure _
      | some f =>
        exact closed_recorded.bind (hargs.argsFor f.params args (List.Subset.refl _)) fun _ =>
          closed_recorded.pure _
    · obtain ⟨leaf, -, -, ⟨rfl, -⟩ | ⟨f, rfl, -, hlength, -⟩⟩ := calledFunction_eq_ok h
      · exact (covers_argTypes args).before fun _ => closed_recorded.pure _
      · exact (covers_argsFor f.params args hlength).before fun _ => closed_recorded.pure _
  | index base place =>
    refine Covers.expr_cons ?_ rfl
    rw [exprType]
    refine (covers_exprType base).bind fun b => ?_
    cases b.pointee? with
    | none => exact covers_fail
    | some pointee =>
      exact (covers_exprType place).before fun t => closed_recorded.reject (closed_recorded.pure _)
  | member e field =>
    refine Covers.expr_cons ?_ rfl
    rw [exprType]
    refine (covers_exprType e).before fun t => closed_recorded.bind closed_recorded.get fun a => ?_
    exact closed_recorded.fieldType _ _ _ _ _
  | arrow e field =>
    refine Covers.expr_cons ?_ rfl
    rw [exprType]
    refine (covers_exprType e).before fun t => closed_recorded.bind closed_recorded.get fun a => ?_
    exact closed_recorded.fieldType _ _ _ _ _
  | sizeOf type =>
    refine Covers.expr_cons ?_ rfl
    rw [exprType]
    refine Covers.type_cons (covers_nil ?_) type
    exact closed_recorded.bind (recorded_resolve type) fun _ => closed_recorded.pure _
  | cast type e =>
    refine Covers.expr_cons ?_ rfl
    rw [exprType]
    refine Covers.type_cons (.after (fun target => ?_) (recorded_resolve type)) type
    refine .reject ((covers_exprType e).before fun src => ?_)
    exact closed_recorded.reject (closed_recorded.reject (closed_recorded.reject
      (closed_recorded.pure _)))
  | list head tail =>
    rw [exprType]
    exact covers_fail

theorem covers_argTypes (args : List Expr) :
    Covers (exprType.argTypes args) (Expr.occurrences.occurrencesAll args) := by
  cases args with
  | nil =>
    rw [exprType.argTypes]
    exact covers_nil (closed_recorded.pure _)
  | cons e rest =>
    rw [exprType.argTypes]
    exact (covers_exprType e).bind fun _ => covers_argTypes rest

theorem covers_argsFor (params : List Variable) (args : List Expr)
    (hlength : params.length = args.length) :
    Covers (exprType.argsFor params args) (Expr.occurrences.occurrencesAll args) := by
  cases args with
  | nil =>
    obtain rfl := List.length_eq_zero_iff.mp hlength
    rw [exprType.argsFor]
    · exact covers_nil (closed_recorded.pure _)
    · exact fun _ _ _ _ h => by cases h
  | cons e rest =>
    cases params with
    | nil => cases hlength
    | cons param params =>
      rw [exprType.argsFor]
      refine (covers_exprType e).bind fun t => .after (fun _ => ?_) ?_
      · exact covers_argsFor params rest (Nat.succ.inj hlength)
      · exact closed_recorded.implicitCast _ _ _ _

end

mutual

theorem covers_initializer (target : CType) (e : Expr) :
    Covers (initializer target e) e.occurrences := by
  by_cases hlist : ∃ head tail, e = .list head tail
  · obtain ⟨head, tail, rfl⟩ := hlist
    have hparts : Covers (initializer target (.list head tail))
        (head.occurrences ++ Expr.occurrences.occurrencesAll tail) := by
      rw [initializer]
      cases target.pointee? with
      | none => exact covers_fail
      | some element =>
        exact (covers_initializer element head).bind fun _ => covers_initializers element tail
    refine ⟨hparts.recorded, fun a r a' h e he hmem => hparts.looks a r a' h e he ?_⟩
    rcases List.mem_cons.mp hmem with heq | hmem
    · cases heq
      cases he
    · exact hmem
  · rw [initializer]
    · exact (covers_exprType e).before fun t => closed_recorded.implicitCast _ _ _ _
    · exact fun head tail heq => hlist ⟨head, tail, heq⟩

theorem covers_initializers (target : CType) (items : List Expr) :
    Covers (initializer.initializers target items) (Expr.occurrences.occurrencesAll items) := by
  cases items with
  | nil =>
    rw [initializer.initializers]
    exact covers_nil (closed_recorded.pure _)
  | cons e rest =>
    rw [initializer.initializers]
    exact (covers_initializer target e).bind fun _ => covers_initializers target rest

end

/-! ## Declarations -/

theorem covers_dimensions (dims : List Dim) :
    Covers (dimensions dims) (dims.flatMap Dim.occurrences) := by
  induction dims with
  | nil => exact covers_nil (closed_recorded.pure _)
  | cons dim rest ih =>
    cases dim with
    | unsized => exact ih
    | sized size => exact (covers_exprType size).bind fun t => .reject ih

theorem covers_declaredType (d : Declarator) : Covers (declaredType d) d.outline := by
  refine Covers.type_cons (.after (fun t => ?_) (recorded_resolve d.type)) d.type
  exact (covers_dimensions d.dims).before fun _ => closed_recorded.pure _

theorem covers_declarator (d : Declarator) : Covers (declarator d) d.occurrences := by
  refine (covers_declaredType d).bind fun declared => ?_
  have hdeclare (t : CType) : Recorded (do
      if t.isVoid then failAt .voidVariable d.pos
      declare ⟨d.name, t⟩ : Check Unit) :=
    closed_recorded.reject ((composed_recorded []).declare _)
  cases d.init with
  | none =>
    refine Covers.before (covers_nil ?_) hdeclare
    exact closed_recorded.reject (closed_recorded.reject (closed_recorded.pure _))
  | some init =>
    rw [Option.toList_some, List.flatMap_singleton]
    refine Covers.before ?_ hdeclare
    unfold initializedType
    split
    · exact .reject ((covers_exprType init).before fun t => closed_recorded.pure _)
    · exact (covers_initializer declared init).before fun _ => closed_recorded.pure _

/-! ## Instructions -/

theorem covers_returnFrom (f : Signature) (value : Option Expr) :
    Covers (returnFrom f value) (value.toList.flatMap Expr.occurrences) := by
  cases value with
  | none => exact covers_nil (Closed.ite (closed_recorded.pure _) (closed_recorded.fail _ _))
  | some e =>
    rw [Option.toList_some, List.flatMap_singleton]
    exact .reject ((covers_exprType e).before fun t => closed_recorded.implicitCast _ _ _ _)

theorem covers_instr (i : Instr) : Covers (instr i) i.occurrences := by
  have hrecorded : Recorded (instr i) :=
    (composed_recorded i.occurrences).instr i (List.Subset.refl _)
  cases i with
  | expr e => exact (covers_exprType e).before fun _ => closed_recorded.pure _
  | declare d => exact covers_forM fun d' _ => covers_declarator d'
  | «return» value =>
    refine .after (fun a => ?_) closed_recorded.get
    split
    · exact covers_fail
    · exact covers_returnFrom _ value
  | «break» token => exact covers_nil hrecorded
  | «continue» token => exact covers_nil hrecorded
  | goto label => exact covers_nil hrecorded

theorem covers_instrType (i : Instr) : Covers (instrType i) i.occurrences := by
  cases i with
  | expr e => exact (covers_exprType e).before fun _ => closed_recorded.pure _
  | _ => exact covers_fail

theorem covers_loopCondition (cond : Option Instr) :
    Covers (loopCondition cond) (cond.toList.flatMap Instr.occurrences) := by
  cases cond with
  | none => exact covers_nil (closed_recorded.pure _)
  | some i =>
    rw [Option.toList_some, List.flatMap_singleton]
    exact (covers_instrType i).before fun _ => closed_recorded.condition _ _

theorem covers_loopStep (step : Option Instr) :
    Covers (loopStep step) (step.toList.flatMap Instr.occurrences) := by
  cases step with
  | none => exact covers_nil (closed_recorded.pure _)
  | some i =>
    rw [Option.toList_some, List.flatMap_singleton]
    exact (covers_instrType i).before fun _ => closed_recorded.pure _

theorem covers_caseLabel (value : Option Expr) :
    Covers (caseLabel value) (value.toList.flatMap Expr.occurrences) := by
  cases value with
  | none => exact covers_nil (closed_recorded.pure _)
  | some e =>
    rw [Option.toList_some, List.flatMap_singleton]
    exact (covers_exprType e).before fun t =>
      Closed.ite (closed_recorded.failAt _ _) (closed_recorded.pure _)

/-! ## Statements -/

theorem recorded_enter (kind : ScopeKind) (f : Option Signature) : Recorded (enter kind f) :=
  fun _ => List.mem_cons_of_mem _ List.mem_cons_self

theorem recorded_leave : Recorded leave :=
  fun _ => List.mem_cons_of_mem _ List.mem_cons_self

/-- What is looked at in a scope of its own. -/
theorem Covers.scope {body : Check Unit} (kind : ScopeKind) (f : Option Signature)
    (hbody : Covers body l) : Covers (do enter kind f; body; leave) l :=
  .after (fun _ => hbody.before fun _ => recorded_leave) (recorded_enter kind f)

/-- What is looked at in a scope of its own, and what comes after it. -/
theorem Covers.scope_bind {body rest : Check Unit} (kind : ScopeKind) (f : Option Signature)
    (hbody : Covers body l) (hrest : Covers rest l') :
    Covers (do enter kind f; body; leave; rest) (l ++ l') :=
  .after (fun _ => hbody.bind fun _ => .after (fun _ => hrest) recorded_leave)
    (recorded_enter kind f)

mutual

theorem covers_stmt (s : Stmt) : Covers (stmt s) s.occurrences := by
  cases s with
  | block body =>
    rw [stmt]
    exact (covers_stmts body).scope _ _
  | line instrs =>
    rw [stmt]
    exact covers_forM fun i _ => covers_instr i
  | label name =>
    rw [stmt]
    exact covers_nil ((composed_recorded []).label name)
  | branches conditional otherwise =>
    rw [stmt]
    exact (covers_branches conditional).bind fun _ => covers_elseBranch otherwise
  | «while» cond body =>
    rw [stmt]
    refine (covers_exprType cond).bind fun t => .after (fun _ => ?_) (closed_recorded.condition _ _)
    exact (covers_stmt body).scope _ _
  | doWhile cond body =>
    have hcond : Covers (do condition (← exprType cond) cond.pos : Check Unit) cond.occurrences :=
      (covers_exprType cond).before fun t => closed_recorded.condition _ _
    have h := (covers_stmt body).scope_bind .loop none hcond
    rw [stmt]
    refine ⟨h.recorded, fun a r a' hexec e he hmem => h.looks a r a' hexec e he ?_⟩
    rw [Stmt.occurrences] at hmem
    exact (List.perm_append_comm.mem_iff).mp hmem
  | «for» init cond step body =>
    have hrest : Covers (do
        loopCondition cond
        loopStep step
        stmt body
        leave) (cond.toList.flatMap Instr.occurrences ++
          (step.toList.flatMap Instr.occurrences ++ body.occurrences)) :=
      (covers_loopCondition cond).bind fun _ => (covers_loopStep step).bind fun _ =>
        (covers_stmt body).before fun _ => recorded_leave
    rw [stmt]
    cases init with
    | none => exact .after (fun _ => hrest) (recorded_enter _ _)
    | some i =>
      rw [Stmt.occurrences, Option.toList_some, List.flatMap_singleton]
      exact .after (fun _ => (covers_instr i).bind fun _ => hrest) (recorded_enter _ _)
  | «switch» selector parts =>
    rw [stmt]
    refine (covers_exprType selector).bind fun t => ?_
    exact .reject (.reject ((covers_cases parts).scope _ _))

theorem covers_stmts (body : List Stmt) :
    Covers (stmt.stmts body) (Stmt.occurrences.occurrencesAll body) := by
  cases body with
  | nil =>
    rw [stmt.stmts]
    exact covers_nil (closed_recorded.pure _)
  | cons s rest =>
    rw [stmt.stmts]
    exact (covers_stmt s).bind fun _ => covers_stmts rest

theorem covers_branches (conditional : List (Expr × Stmt)) :
    Covers (stmt.branches conditional) (Stmt.occurrences.occurrencesBranches conditional) := by
  match conditional with
  | [] =>
    rw [stmt.branches]
    exact covers_nil (closed_recorded.pure _)
  | (cond, body) :: rest =>
    rw [stmt.branches]
    refine (covers_exprType cond).bind fun t => .after (fun _ => ?_) (closed_recorded.condition _ _)
    exact (covers_stmt body).scope_bind _ _ (covers_branches rest)

theorem covers_elseBranch (otherwise : Option Stmt) :
    Covers (stmt.elseBranch otherwise) (Stmt.occurrences.occurrencesElse otherwise) := by
  match otherwise with
  | none =>
    rw [stmt.elseBranch]
    exact covers_nil (closed_recorded.pure _)
  | some body =>
    rw [stmt.elseBranch]
    exact (covers_stmt body).scope _ _

theorem covers_cases (parts : List (Option Expr × List Stmt)) :
    Covers (stmt.cases parts) (Stmt.occurrences.occurrencesCases parts) := by
  match parts with
  | [] =>
    rw [stmt.cases]
    exact covers_nil (closed_recorded.pure _)
  | (value, body) :: rest =>
    rw [stmt.cases]
    exact (covers_caseLabel value).bind fun _ =>
      (covers_stmts body).scope_bind _ _ (covers_cases rest)

end

/-! ## Programs -/

theorem covers_structField (tag : String) (decl : Nat) (d : Declarator) :
    Covers (structField tag decl d) d.outline := by
  refine (covers_declaredType d).before fun t => closed_recorded.reject (closed_recorded.reject ?_)
  refine closed_recorded.bind closed_recorded.get fun a => closed_recorded.reject ?_
  exact fun _ => List.mem_cons_of_mem _ List.mem_cons_self

theorem covers_structDecl (name : Leaf) (fields : List Declarator) :
    Covers (structDecl name fields) (fields.flatMap Declarator.outline) := by
  refine .after (fun a => .after (fun a' => .reject (.after (fun _ => ?_) ?_))
    closed_recorded.get) closed_recorded.get
  · exact covers_forM fun d _ => covers_structField _ _ d
  · exact fun _ => List.mem_cons_of_mem _ List.mem_cons_self

theorem recorded_signature (name : Token) (returnType : CType) (params : List Variable)
    (hasBody : Bool) : Recorded (signature name returnType params hasBody) :=
  closed_recorded.signature (fun i f _ => recorded_modifyScope i f) _ _ _ _

theorem covers_functionHead (returnType : TypeName) (name : Leaf) (params : List Declarator)
    (hasBody : Bool) :
    Covers (functionHead returnType name params hasBody)
      (params.flatMap Declarator.outline) := by
  refine .after (fun t => .reject ?_) (recorded_resolve returnType)
  refine (covers_mapM fun d _ => ?_).before fun vs => recorded_signature _ _ _ _
  exact (covers_declaredType d).before fun t => closed_recorded.reject (closed_recorded.pure _)

theorem covers_functionBody (f : Signature) (body : List Stmt) :
    Covers (functionBody f body) (Stmt.occurrences.occurrencesAll body) := by
  have hgotos : Recorded jumpTargets := by
    refine closed_recorded.bind closed_recorded.get fun a => ?_
    split
    · exact closed_recorded.pure _
    · exact closed_recorded.resolveGotos _ _
  rw [functionBody_eq]
  refine Covers.scope _ _ (.after (fun _ => ?_) ?_)
  · exact (covers_stmt (.block body)).before fun _ => hgotos
  · exact closed_recorded.forM fun v _ => (composed_recorded []).declare v

theorem covers_item (i : Item) : Covers (item i) i.code := by
  cases i with
  | directive token => exact covers_nil (closed_recorded.pure _)
  | struct name fields => exact covers_structDecl name fields
  | function returnType name params body =>
    refine Covers.type_cons ?_ returnType
    exact (covers_functionHead returnType name params true).bind fun f => covers_functionBody f body
  | prototype returnType name params =>
    refine Covers.type_cons ?_ returnType
    exact (covers_functionHead returnType name params false).before fun _ => closed_recorded.pure _
  | declaration d => exact covers_forM fun d' _ => covers_declarator d'

theorem covers_program (p : Program) : Covers (program p) p.code :=
  (covers_forM fun i _ => covers_item i).scope _ _

end Check

end MiniC
