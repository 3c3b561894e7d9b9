import MiniC.Proofs.Names.Linked
import MiniC.Proofs.Names.Steady

set_option autoImplicit false

/-! # What the analysis finds out about names

The analysis looks at every occurrence of a name at most once, so that an occurrence has at most one
meaning. -/

namespace MiniC.Check

open Traced

variable {α β : Type} {leaves leaves' : List Leaf}

/-- The occurrences of names of which a part of the analysis has found a meaning. -/
def noted (trace : List (Moment Finding Analysis)) : List Leaf :=
  trace.filterMap fun moment => moment.deed.map fun | .meaning leaf _ => leaf

/-- What the analysis finds of an occurrence is found at one moment, if it is found once. -/
theorem moment_unique {trace : List (Moment Finding Analysis)} {leaf : Leaf} {e e' : Entity}
    {moment moment' : Moment Finding Analysis} (hcount : (noted trace).count leaf ≤ 1)
    (hmem : moment ∈ trace) (hmem' : moment' ∈ trace)
    (hdeed : moment.deed = some (.meaning leaf e))
    (hdeed' : moment'.deed = some (.meaning leaf e')) : moment = moment' := by
  have hnoted : ∀ {rest : List (Moment Finding Analysis)} {m : Moment Finding Analysis} {e : Entity},
      m ∈ rest → m.deed = some (.meaning leaf e) → 0 < (noted rest).count leaf := by
    intro rest m e hm hdeed
    exact List.count_pos_iff.mpr (List.mem_filterMap.mpr ⟨m, hm, by rw [hdeed]; rfl⟩)
  induction trace with
  | nil => cases hmem
  | cons first rest ih =>
    have hfirst : ∀ {e : Entity}, first.deed = some (.meaning leaf e) →
        (noted rest).count leaf = 0 := by
      intro e hfirst
      rw [noted, List.filterMap_cons, hfirst] at hcount
      exact Nat.lt_one_iff.mp (Nat.lt_of_lt_of_le (by simp [noted]) hcount)
    rcases List.mem_cons.mp hmem with rfl | hrest
    · rcases List.mem_cons.mp hmem' with rfl | hrest'
      · rfl
      · exact absurd (hfirst hdeed) (Nat.ne_of_gt (hnoted hrest' hdeed'))
    · rcases List.mem_cons.mp hmem' with rfl | hrest'
      · exact absurd (hfirst hdeed') (Nat.ne_of_gt (hnoted hrest hdeed))
      · refine ih (Nat.le_trans ?_ hcount) hrest hrest'
        exact (List.Sublist.filterMap _ (List.sublist_cons_self first rest)).count_le leaf

/-- Whether a part of the analysis finds meanings of the given occurrences at most, and of each of
them as often as it is given at most. -/
def Notes (x : Check α) (leaves : List Leaf) : Prop :=
  ∀ a l, (noted (x.trace a)).count l ≤ leaves.count l

theorem Quiet.notes {x : Check α} (hx : Quiet x) : Notes x leaves := by
  intro a l
  have hnone : noted (x.trace a) = [] := by
    rw [noted, List.filterMap_eq_nil_iff]
    intro moment hmoment
    rw [hx a moment hmoment, Option.map_none]
  rw [hnone, List.count_nil]
  exact Nat.zero_le _

theorem notes_note (leaf : Leaf) (e : Entity) : Notes (note (.meaning leaf e)) [leaf] :=
  fun _ _ => Nat.le_refl _

theorem Notes.bind {x : Check α} {f : α → Check β} (hx : Notes x leaves)
    (hf : ∀ r, Notes (f r) leaves') : Notes (x >>= f) (leaves ++ leaves') := by
  intro a l
  rw [List.count_append]
  cases hexec : x.exec a with
  | ok r t =>
    rw [trace_bind_of_ok f hexec, noted, List.filterMap_append, List.count_append]
    exact Nat.add_le_add (hx a l) (hf r t l)
  | error e t =>
    rw [trace_bind_of_error f hexec]
    exact Nat.le_add_right_of_le (hx a l)

theorem Notes.bind_quiet {x : Check α} {f : α → Check β} (hx : Notes x leaves)
    (hf : ∀ r, Quiet (f r)) : Notes (x >>= f) leaves := by
  rw [← List.append_nil leaves]
  exact hx.bind fun r => (hf r).notes

theorem Quiet.notes_bind {x : Check α} {f : α → Check β} (hx : Quiet x)
    (hf : ∀ r, Notes (f r) leaves) : Notes (x >>= f) leaves :=
  (hx.notes : Notes x []).bind hf

theorem Notes.cons {x : Check α} {leaf : Leaf} (hx : Notes x leaves) :
    Notes x (leaf :: leaves) :=
  fun a l => Nat.le_trans (hx a l) List.count_le_count_cons

theorem Notes.swap {x : Check α} (hx : Notes x (leaves ++ leaves')) :
    Notes x (leaves' ++ leaves) := by
  intro a l
  rw [List.count_append, Nat.add_comm, ← List.count_append]
  exact hx a l

/-- A step that ends with an error in one case, and goes on in the other one. -/
theorem notes_reject {c : Prop} [Decidable c] {cause : SemanticCause} {pos : Position}
    {f : α → Check β} {x : Check β} (hx : Notes x leaves) :
    Notes (if c then failAt cause pos >>= f else x) leaves := by
  split
  · exact fun a l => Nat.zero_le _
  · exact hx

theorem notes_failAt {cause : SemanticCause} {pos : Position} :
    Notes (failAt cause pos : Check α) leaves :=
  (quiet_failAt cause pos).notes

theorem notes_pure {r : α} : Notes (pure r) leaves :=
  (quiet_pure r).notes

/-- The same step for each thing of a list. -/
theorem notes_forM {γ : Type} {f : γ → Check PUnit} {names : γ → List Leaf} {l : List γ}
    (hf : ∀ c ∈ l, Notes (f c) (names c)) : Notes (l.forM f) (l.flatMap names) := by
  induction l with
  | nil => exact notes_pure
  | cons c rest ih =>
    have hf := List.forall_mem_cons.mp hf
    rw [List.flatMap_cons]
    exact hf.1.bind fun _ => ih hf.2

/-! ## Expressions -/

theorem notes_variableType (leaf : Leaf) : Notes (variableType leaf) [leaf] := by
  refine quiet_get.notes_bind fun a => ?_
  split
  · exact notes_failAt
  · exact notes_failAt
  · exact (notes_note leaf _).bind_quiet fun _ => (steady_annotate _ _).quiet

theorem notes_calledFunction (callee : Expr) (count : Nat) :
    Notes (calledFunction callee count) callee.names := by
  cases callee with
  | identifier leaf =>
    refine quiet_get.notes_bind fun a => ?_
    split
    · refine Quiet.notes ?_
      exact quiet_ite (quiet_ite (quiet_failAt _ _) (quiet_pure _)) (quiet_failAt _ _)
    · exact notes_failAt
    · split
      · exact notes_failAt
      · split
        · exact notes_failAt
        · exact (notes_note leaf _).bind_quiet fun _ => quiet_pure _
  | _ => exact notes_failAt

mutual

theorem notes_exprType (e : Expr) : Notes (exprType e) e.names := by
  cases e with
  | identifier leaf =>
    rw [exprType]
    exact notes_variableType leaf
  | literal leaf k =>
    rw [exprType]
    exact (steady_annotate _ _).quiet.notes
  | parens e =>
    rw [exprType]
    exact notes_exprType e
  | unary op e =>
    rw [exprType]
    refine notes_reject ((notes_exprType e).bind_quiet fun t => ?_)
    exact (steady_unaryType _ _ _ _).quiet
  | step op e =>
    rw [exprType]
    refine notes_reject ((notes_exprType e).bind_quiet fun t => ?_)
    exact quiet_reject (quiet_reject (quiet_pure t))
  | binary op left right =>
    rw [exprType]
    refine (notes_exprType left).bind fun l => (notes_exprType right).bind_quiet fun r => ?_
    exact (steady_operatorType _ _ _ _).quiet
  | assign op left right =>
    rw [exprType]
    refine notes_reject ((notes_exprType left).bind fun l => ?_)
    refine notes_reject ((notes_exprType right).bind_quiet fun r => ?_)
    have hrest (result : CType) : Quiet (do
        implicitCast .cast result l left.pos
        pure l) := quiet_bind (steady_implicitCast _ _ _ _).quiet fun _ => quiet_pure l
    cases op with
    | none => exact quiet_bind (quiet_pure r) hrest
    | some op => exact quiet_bind (steady_operatorType _ _ _ _).quiet hrest
  | conditional cond first second =>
    rw [exprType, Expr.names, List.append_assoc]
    refine (notes_exprType cond).bind fun t => ?_
    refine (steady_condition _ _).quiet.notes_bind fun _ => ?_
    refine (notes_exprType first).bind fun t₁ => (notes_exprType second).bind_quiet fun t₂ => ?_
    exact (steady_widerType _ _ _ _).quiet
  | call callee args =>
    rw [exprType]
    refine (notes_calledFunction callee args.length).bind fun f? => ?_
    cases f? with
    | none => exact (notes_argTypes args).bind_quiet fun _ => quiet_pure _
    | some f => exact (notes_argsFor f.params args).bind_quiet fun _ => quiet_pure _
  | index base i =>
    rw [exprType]
    refine (notes_exprType base).bind fun b => ?_
    cases b.pointee? with
    | none => exact notes_failAt
    | some pointee =>
      exact (notes_exprType i).bind_quiet fun t => quiet_reject (quiet_pure _)
  | member e field =>
    rw [exprType]
    refine (notes_exprType e).bind_quiet fun t => quiet_bind quiet_get fun a => ?_
    exact (steady_fieldType _ _ _ _ _).quiet
  | arrow e field =>
    rw [exprType]
    refine (notes_exprType e).bind_quiet fun t => quiet_bind quiet_get fun a => ?_
    exact (steady_fieldType _ _ _ _ _).quiet
  | sizeOf type =>
    rw [exprType]
    exact (steady_resolve type).quiet.notes_bind fun _ => notes_pure
  | cast type e =>
    rw [exprType]
    refine (steady_resolve type).quiet.notes_bind fun target => ?_
    have hrest (src : CType) : Quiet (do
        if target.isAuto then failAt .castToAuto type.first.pos
        if (src.isStruct || target.isStruct) && src.tag? ≠ target.tag? then
          failAt (.cast .struct) type.first.pos
        if src.isVoid && !target.isVoid then failAt (.cast .void) type.first.pos
        pure target) := quiet_reject (quiet_reject (quiet_reject (quiet_pure _)))
    exact notes_reject ((notes_exprType e).bind_quiet hrest)
  | list head tail =>
    rw [exprType]
    exact notes_failAt

theorem notes_argTypes (args : List Expr) :
    Notes (exprType.argTypes args) (Expr.names.namesAll args) := by
  cases args with
  | nil =>
    rw [exprType.argTypes]
    exact notes_pure
  | cons e rest =>
    rw [exprType.argTypes]
    exact (notes_exprType e).bind fun _ => notes_argTypes rest

theorem notes_argsFor (params : List Variable) (args : List Expr) :
    Notes (exprType.argsFor params args) (Expr.names.namesAll args) := by
  cases args with
  | nil =>
    rw [exprType.argsFor]
    · exact notes_pure
    · exact fun _ _ _ _ _ h => by cases h
  | cons e rest =>
    cases params with
    | nil =>
      rw [exprType.argsFor]
      · exact notes_pure
      · exact fun _ _ _ _ h => by cases h
    | cons param params =>
      rw [exprType.argsFor]
      refine (notes_exprType e).bind fun t => ?_
      exact (steady_implicitCast _ _ _ _).quiet.notes_bind fun _ => notes_argsFor params rest

end

mutual

theorem notes_initializer (target : CType) (e : Expr) : Notes (initializer target e) e.names := by
  by_cases hlist : ∃ head tail, e = .list head tail
  · obtain ⟨head, tail, rfl⟩ := hlist
    rw [initializer]
    cases target.pointee? with
    | none => exact notes_failAt
    | some element =>
      exact (notes_initializer element head).bind fun _ => notes_initializers element tail
  · rw [initializer]
    · exact (notes_exprType e).bind_quiet fun t => (steady_implicitCast _ _ _ _).quiet
    · exact fun head tail h => hlist ⟨head, tail, h⟩

theorem notes_initializers (target : CType) (items : List Expr) :
    Notes (initializer.initializers target items) (Expr.names.namesAll items) := by
  cases items with
  | nil =>
    rw [initializer.initializers]
    exact notes_pure
  | cons e rest =>
    rw [initializer.initializers]
    exact (notes_initializer target e).bind fun _ => notes_initializers target rest

end

/-! ## Declarations -/

theorem notes_dimensions (dims : List Dim) : Notes (dimensions dims) (dims.flatMap Dim.names) := by
  induction dims with
  | nil => exact notes_pure
  | cons dim rest ih =>
    cases dim with
    | unsized => exact ih
    | sized size => exact (notes_exprType size).bind fun t => notes_reject ih

theorem notes_declaredType (d : Declarator) : Notes (declaredType d) d.sizeNames :=
  (steady_resolve d.type).quiet.notes_bind fun _ =>
    (notes_dimensions d.dims).bind_quiet fun _ => quiet_pure _

theorem quiet_put (id : Nat) (e : Entity) : Quiet (put id e) := by
  refine quiet_bind quiet_get fun a => ?_
  split
  · exact quiet_pure ()
  · exact quiet_modify _

theorem quiet_declare (v : Variable) : Quiet (declare v) := by
  refine quiet_bind quiet_get fun a => ?_
  split
  · exact quiet_failAt _ _
  · exact quiet_put _ _

theorem notes_declarator (d : Declarator) : Notes (declarator d) d.names := by
  refine (notes_declaredType d).bind fun declared => ?_
  have hdeclare (t : CType) : Quiet (do
      if t.isVoid then failAt .voidVariable d.pos
      declare ⟨d.name, t⟩) := quiet_reject (quiet_declare _)
  cases d.init with
  | none =>
    refine Notes.bind_quiet ?_ hdeclare
    exact notes_reject (notes_reject notes_pure)
  | some init =>
    refine Notes.bind_quiet ?_ hdeclare
    rw [Option.toList_some, List.flatMap_singleton]
    unfold initializedType
    split
    · exact notes_reject ((notes_exprType init).bind_quiet fun t => quiet_pure _)
    · exact (notes_initializer declared init).bind_quiet fun _ => quiet_pure _

/-! ## Instructions -/

theorem notes_instr (i : Instr) : Notes (instr i) i.names := by
  cases i with
  | expr e => exact (notes_exprType e).bind_quiet fun _ => quiet_pure ()
  | declare d => exact notes_forM fun d' _ => notes_declarator d'
  | «break» token =>
    exact quiet_get.notes_bind fun a => (quiet_ite (quiet_failAt _ _) (quiet_pure ())).notes
  | «continue» token =>
    exact quiet_get.notes_bind fun a => (quiet_ite (quiet_failAt _ _) (quiet_pure ())).notes
  | «return» value =>
    refine quiet_get.notes_bind fun a => ?_
    split
    · exact (quiet_fail _ _).notes
    · cases value with
      | none => exact (quiet_ite (quiet_pure ()) (quiet_fail _ _)).notes
      | some e =>
        rw [Instr.names, Option.toList_some, List.flatMap_singleton]
        refine notes_reject ((notes_exprType e).bind_quiet fun t => ?_)
        exact (steady_implicitCast _ _ _ _).quiet
  | goto label =>
    refine quiet_get.notes_bind fun a => ?_
    split
    · exact notes_failAt
    · exact (quiet_modify _).notes

theorem notes_instrType (i : Instr) : Notes (instrType i) i.names := by
  cases i with
  | expr e => exact (notes_exprType e).bind_quiet fun _ => quiet_pure _
  | _ => exact (quiet_fail _ _).notes

/-! ## Statements -/

theorem quiet_enter (kind : ScopeKind) (f : Option Signature) : Quiet (enter kind f) :=
  quiet_modify _

theorem quiet_leave : Quiet leave :=
  quiet_modify _

/-- What is looked at in a scope of its own. -/
theorem notes_scope {body : Check Unit} (kind : ScopeKind) (f : Option Signature)
    (hbody : Notes body leaves) : Notes (do enter kind f; body; leave) leaves :=
  (quiet_enter kind f).notes_bind fun _ => hbody.bind_quiet fun _ => quiet_leave

/-- What is looked at in a scope of its own, and what comes after it. -/
theorem notes_scope_bind {body rest : Check Unit} (kind : ScopeKind) (f : Option Signature)
    (hbody : Notes body leaves) (hrest : Notes rest leaves') :
    Notes (do enter kind f; body; leave; rest) (leaves ++ leaves') :=
  (quiet_enter kind f).notes_bind fun _ =>
    hbody.bind fun _ => quiet_leave.notes_bind fun _ => hrest

theorem notes_label (name : Leaf) : Notes (label name) leaves := by
  refine quiet_get.notes_bind fun a => ?_
  split
  · exact notes_failAt
  · exact notes_reject (quiet_modify _).notes

theorem notes_loopCondition (cond : Option Instr) :
    Notes (loopCondition cond) (cond.toList.flatMap Instr.names) := by
  cases cond with
  | none => exact notes_pure
  | some i =>
    rw [Option.toList_some, List.flatMap_singleton]
    exact (notes_instrType i).bind_quiet fun _ => (steady_condition _ _).quiet

theorem notes_loopStep (step : Option Instr) :
    Notes (loopStep step) (step.toList.flatMap Instr.names) := by
  cases step with
  | none => exact notes_pure
  | some i =>
    rw [Option.toList_some, List.flatMap_singleton]
    exact (notes_instrType i).bind_quiet fun _ => quiet_pure ()

theorem notes_caseLabel (value : Option Expr) :
    Notes (caseLabel value) (value.toList.flatMap Expr.names) := by
  cases value with
  | none => exact notes_pure
  | some e =>
    rw [Option.toList_some, List.flatMap_singleton]
    exact (notes_exprType e).bind_quiet fun t => quiet_ite (quiet_failAt _ _) (quiet_pure ())

mutual

theorem notes_stmt (s : Stmt) : Notes (stmt s) s.names := by
  cases s with
  | block body =>
    rw [stmt]
    exact notes_scope _ _ (notes_stmts body)
  | line instrs =>
    rw [stmt]
    exact notes_forM fun i _ => notes_instr i
  | label name =>
    rw [stmt]
    exact notes_label name
  | branches conditional otherwise =>
    rw [stmt]
    exact (notes_branches conditional).bind fun _ => notes_elseBranch otherwise
  | «while» cond body =>
    rw [stmt]
    refine (notes_exprType cond).bind fun t => ?_
    exact (steady_condition _ _).quiet.notes_bind fun _ => notes_scope _ _ (notes_stmt body)
  | doWhile cond body =>
    rw [stmt]
    refine (notes_scope_bind _ _ (notes_stmt body) ?_).swap
    exact (notes_exprType cond).bind_quiet fun t => (steady_condition _ _).quiet
  | «for» init cond step body =>
    have hrest : Notes (do
        loopCondition cond
        loopStep step
        stmt body
        leave) (cond.toList.flatMap Instr.names ++
          (step.toList.flatMap Instr.names ++ body.names)) := by
      refine (notes_loopCondition cond).bind fun _ => (notes_loopStep step).bind fun _ => ?_
      exact (notes_stmt body).bind_quiet fun _ => quiet_leave
    simp only [stmt, Stmt.names, List.flatMap_append, List.append_assoc]
    cases init with
    | none => exact (quiet_enter _ _).notes_bind fun _ => hrest
    | some i =>
      refine (quiet_enter _ _).notes_bind fun _ => ?_
      rw [Option.toList_some, List.flatMap_singleton]
      exact (notes_instr i).bind fun _ => hrest
  | «switch» selector parts =>
    rw [stmt]
    refine (notes_exprType selector).bind fun t => ?_
    exact notes_reject (notes_reject (notes_scope _ _ (notes_cases parts)))

theorem notes_stmts (body : List Stmt) : Notes (stmt.stmts body) (Stmt.names.namesAll body) := by
  cases body with
  | nil =>
    rw [stmt.stmts]
    exact notes_pure
  | cons s rest =>
    rw [stmt.stmts]
    exact (notes_stmt s).bind fun _ => notes_stmts rest

theorem notes_branches (conditional : List (Expr × Stmt)) :
    Notes (stmt.branches conditional) (Stmt.names.namesBranches conditional) := by
  match conditional with
  | [] =>
    rw [stmt.branches]
    exact notes_pure
  | (cond, body) :: rest =>
    rw [stmt.branches, Stmt.names.namesBranches, List.append_assoc]
    refine (notes_exprType cond).bind fun t => (steady_condition _ _).quiet.notes_bind fun _ => ?_
    exact notes_scope_bind _ _ (notes_stmt body) (notes_branches rest)

theorem notes_elseBranch (otherwise : Option Stmt) :
    Notes (stmt.elseBranch otherwise) (Stmt.names.namesElse otherwise) := by
  match otherwise with
  | none =>
    rw [stmt.elseBranch]
    exact notes_pure
  | some body =>
    rw [stmt.elseBranch]
    exact notes_scope _ _ (notes_stmt body)

theorem notes_cases (parts : List (Option Expr × List Stmt)) :
    Notes (stmt.cases parts) (Stmt.names.namesCases parts) := by
  match parts with
  | [] =>
    rw [stmt.cases]
    exact notes_pure
  | (value, body) :: rest =>
    rw [stmt.cases, Stmt.names.namesCases, List.append_assoc]
    refine (notes_caseLabel value).bind fun _ => ?_
    exact notes_scope_bind _ _ (notes_stmts body) (notes_cases rest)

end

/-! ## Programs -/

theorem notes_structField (tag : String) (decl : Nat) (d : Declarator) :
    Notes (structField tag decl d) d.sizeNames := by
  refine (notes_declaredType d).bind_quiet fun _ => quiet_reject (quiet_reject ?_)
  exact quiet_bind quiet_get fun a => quiet_reject (quiet_modify _)

theorem notes_parameter (d : Declarator) : Notes (parameter d) d.sizeNames :=
  (notes_declaredType d).bind_quiet fun _ => quiet_reject (quiet_pure _)

theorem notes_parameters (params : List Declarator) :
    Notes (params.mapM parameter) (params.flatMap Declarator.sizeNames) := by
  induction params with
  | nil =>
    rw [List.mapM_nil]
    exact notes_pure
  | cons d rest ih =>
    rw [List.mapM_cons]
    exact (notes_parameter d).bind fun v => ih.bind_quiet fun vs => quiet_pure _

theorem quiet_signature (name : Token) (returnType : CType) (params : List Variable)
    (hasBody : Bool) : Quiet (signature name returnType params hasBody) := by
  refine quiet_bind quiet_get fun a => ?_
  split
  · refine quiet_reject (quiet_reject ?_)
    exact quiet_ite (quiet_bind (quiet_put _ _) fun _ => quiet_pure _) (quiet_pure _)
  · exact quiet_failAt _ _
  · exact quiet_bind (quiet_put _ _) fun _ => quiet_pure _

theorem notes_functionHead (returnType : TypeName) (name : Leaf) (params : List Declarator)
    (hasBody : Bool) :
    Notes (functionHead returnType name params hasBody)
      (params.flatMap Declarator.sizeNames) := by
  refine (steady_resolve returnType).quiet.notes_bind fun t => notes_reject ?_
  exact (notes_parameters params).bind_quiet fun vs => quiet_signature _ _ _ _

theorem notes_functionBody (f : Signature) (body : List Stmt) :
    Notes (functionBody f body) (Stmt.names.namesAll body) := by
  have hparams : Quiet (f.params.forM declare) := by
    induction f.params with
    | nil => exact quiet_pure ()
    | cons v rest ih => exact quiet_bind (quiet_declare v) fun _ => ih
  refine (quiet_enter _ _).notes_bind fun _ => hparams.notes_bind fun _ => ?_
  refine (notes_stmt (.block body)).bind_quiet fun _ => quiet_bind quiet_get fun a => ?_
  split
  · exact quiet_leave
  · exact quiet_bind (steady_resolveGotos _ _).quiet fun _ => quiet_leave

theorem notes_item (i : Item) : Notes (item i) i.names := by
  cases i with
  | directive token => exact notes_pure
  | struct name fields =>
    refine quiet_get.notes_bind fun a => quiet_get.notes_bind fun a' => notes_reject ?_
    exact (quiet_modify _).notes_bind fun _ => notes_forM fun d _ => notes_structField _ _ d
  | function returnType name params body =>
    refine Notes.cons ?_
    exact (notes_functionHead returnType name params true).bind fun f => notes_functionBody f body
  | prototype returnType name params =>
    refine Notes.cons ?_
    exact (notes_functionHead returnType name params false).bind_quiet fun _ => quiet_pure ()
  | declaration d => exact notes_forM fun d' _ => notes_declarator d'

/-- The analysis of a program finds no more meanings than there are names in it. -/
theorem notes_program (p : Program) : Notes (program p) (p.items.flatMap Item.names) :=
  notes_scope _ _ (notes_forM fun i _ => notes_item i)

end MiniC.Check
