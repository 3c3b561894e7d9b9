import MiniC.Run.Machine

set_option autoImplicit false

/-! # Occurrences

The expressions and type names of which a program consists, in the order in which they begin in its
text. An expression comes before its parts. -/

namespace MiniC

/-- An expression or a type name at its place in a program. -/
inductive Occurrence
  | expr (e : Expr)
  | type (name : TypeName)

/-- The number of the leaf that an occurrence is, unless it consists of other occurrences. -/
def Occurrence.slot? : Occurrence → Option Nat
  | .expr (.identifier leaf) => some leaf.slot
  | .expr (.literal leaf _) => some leaf.slot
  | .expr _ => none
  | .type name => some name.slot

/-! ## Expressions -/

/-- The expressions and type names of which an expression consists. -/
def Expr.occurrences : Expr → List Occurrence
  | .identifier leaf => [.expr (.identifier leaf)]
  | .literal leaf kind => [.expr (.literal leaf kind)]
  | .parens e => .expr (.parens e) :: e.occurrences
  | .unary op e => .expr (.unary op e) :: e.occurrences
  | .step op e => .expr (.step op e) :: e.occurrences
  | .binary op left right =>
    .expr (.binary op left right) :: (left.occurrences ++ right.occurrences)
  | .assign op left right =>
    .expr (.assign op left right) :: (left.occurrences ++ right.occurrences)
  | .conditional cond first second =>
    .expr (.conditional cond first second) ::
      (cond.occurrences ++ (first.occurrences ++ second.occurrences))
  | .call callee args => .expr (.call callee args) :: (callee.occurrences ++ occurrencesAll args)
  | .index base place => .expr (.index base place) :: (base.occurrences ++ place.occurrences)
  | .member e field => .expr (.member e field) :: e.occurrences
  | .arrow e field => .expr (.arrow e field) :: e.occurrences
  | .sizeOf type => [.expr (.sizeOf type), .type type]
  | .cast type e => .expr (.cast type e) :: .type type :: e.occurrences
  | .list head tail => .expr (.list head tail) :: (head.occurrences ++ occurrencesAll tail)
where
  /-- The expressions and type names of which several expressions consist. -/
  occurrencesAll : List Expr → List Occurrence
    | [] => []
    | e :: rest => e.occurrences ++ occurrencesAll rest

/-- An expression is the first of its own occurrences. -/
theorem Expr.mem_occurrences_self (e : Expr) : .expr e ∈ e.occurrences := by
  cases e <;> exact List.mem_cons_self

/-- The name that an expression is, apart from parentheses. -/
def Expr.name? : Expr → Option Leaf
  | .identifier leaf => some leaf
  | .parens e => e.name?
  | _ => none

/-- The name of the variable that an expression writes, or takes the address of. -/
def Expr.target? : Expr → Option Leaf
  | .assign _ left _ => left.name?
  | .step _ e => e.name?
  | .unary .address e => e.name?
  | _ => none

/-! ## Declarations -/

/-- The occurrences in a dimension. -/
def Dim.occurrences : Dim → List Occurrence
  | .sized size => size.occurrences
  | .unsized => []

/-- The occurrences in a declarator. -/
def Declarator.occurrences (d : Declarator) : List Occurrence :=
  .type d.type :: (d.dims.flatMap Dim.occurrences ++ d.init.toList.flatMap Expr.occurrences)

/-- The occurrences in a declarator apart from its initializer. -/
def Declarator.outline (d : Declarator) : List Occurrence :=
  .type d.type :: d.dims.flatMap Dim.occurrences

/-- The occurrences in a declaration. -/
def Declaration.occurrences (d : Declaration) : List Occurrence :=
  d.all.flatMap Declarator.occurrences

/-! ## Statements -/

/-- The occurrences in an instruction. -/
def Instr.occurrences : Instr → List Occurrence
  | .expr e => e.occurrences
  | .declare d => d.occurrences
  | .return value => value.toList.flatMap Expr.occurrences
  | .break _ => []
  | .continue _ => []
  | .goto _ => []

/-- The occurrences in a statement. -/
def Stmt.occurrences : Stmt → List Occurrence
  | .block body => occurrencesAll body
  | .line instrs => instrs.flatMap Instr.occurrences
  | .label _ => []
  | .branches conditional otherwise =>
    occurrencesBranches conditional ++ occurrencesElse otherwise
  | .while cond body => cond.occurrences ++ body.occurrences
  | .doWhile cond body => cond.occurrences ++ body.occurrences
  | .for init cond step body =>
    init.toList.flatMap Instr.occurrences ++ (cond.toList.flatMap Instr.occurrences ++
      (step.toList.flatMap Instr.occurrences ++ body.occurrences))
  | .switch selector parts => selector.occurrences ++ occurrencesCases parts
where
  /-- The occurrences in statements. -/
  occurrencesAll : List Stmt → List Occurrence
    | [] => []
    | s :: rest => s.occurrences ++ occurrencesAll rest
  /-- The occurrences in conditions and their branches. -/
  occurrencesBranches : List (Expr × Stmt) → List Occurrence
    | [] => []
    | (cond, body) :: rest =>
      cond.occurrences ++ (body.occurrences ++ occurrencesBranches rest)
  /-- The occurrences in the branch for no condition. -/
  occurrencesElse : Option Stmt → List Occurrence
    | none => []
    | some body => body.occurrences
  /-- The occurrences in the cases of a switch. -/
  occurrencesCases : List (Option Expr × List Stmt) → List Occurrence
    | [] => []
    | (value, body) :: rest =>
      value.toList.flatMap Expr.occurrences ++ (occurrencesAll body ++ occurrencesCases rest)

/-! ## Programs -/

/-- The occurrences in a piece of a program. -/
def Item.occurrences : Item → List Occurrence
  | .directive _ => []
  | .struct _ fields => fields.flatMap Declarator.occurrences
  | .function returnType _ params body =>
    .type returnType ::
      (params.flatMap Declarator.occurrences ++ Stmt.occurrences.occurrencesAll body)
  | .prototype returnType _ params =>
    .type returnType :: params.flatMap Declarator.occurrences
  | .declaration d => d.occurrences

/-- The occurrences in a program. -/
def Program.occurrences (p : Program) : List Occurrence :=
  p.items.flatMap Item.occurrences

/-! ## What is executed

Parameters and fields have no initializers in a source text, and a run does not look at any. -/

/-- The occurrences in the parameters and the body of a function, apart from the initializers of
parameters. -/
def FunctionDef.code (f : FunctionDef) : List Occurrence :=
  f.params.flatMap Declarator.outline ++ Stmt.occurrences.occurrencesAll f.body

/-- The occurrences in a piece of a program, apart from the initializers of parameters and fields. -/
def Item.code : Item → List Occurrence
  | .directive _ => []
  | .struct _ fields => fields.flatMap Declarator.outline
  | .function returnType _ params body =>
    .type returnType ::
      (params.flatMap Declarator.outline ++ Stmt.occurrences.occurrencesAll body)
  | .prototype returnType _ params => .type returnType :: params.flatMap Declarator.outline
  | .declaration d => d.occurrences

/-- The occurrences in a program, apart from the initializers of parameters and fields. -/
def Program.code (p : Program) : List Occurrence :=
  p.items.flatMap Item.code

theorem Declarator.outline_subset (d : Declarator) : d.outline ⊆ d.occurrences :=
  List.cons_subset_cons _ (List.subset_append_left _ _)

theorem Declarator.outlines_subset (ds : List Declarator) :
    ds.flatMap outline ⊆ ds.flatMap occurrences := by
  intro o ho
  obtain ⟨d, hd, ho⟩ := List.mem_flatMap.mp ho
  exact List.mem_flatMap.mpr ⟨d, hd, d.outline_subset ho⟩

/-- What a program executes occurs in it. -/
theorem Program.code_subset (p : Program) : p.code ⊆ p.occurrences := by
  intro o ho
  obtain ⟨i, hi, ho⟩ := List.mem_flatMap.mp ho
  refine List.mem_flatMap.mpr ⟨i, hi, ?_⟩
  cases i with
  | directive token => exact ho
  | struct name fields => exact Declarator.outlines_subset fields ho
  | function returnType name params body =>
    refine List.cons_subset_cons _ (List.append_subset.mpr ⟨?_, ?_⟩) ho
    · exact List.Subset.trans (Declarator.outlines_subset params) (List.subset_append_left _ _)
    · exact List.subset_append_right _ _
  | prototype returnType name params =>
    exact List.cons_subset_cons _ (Declarator.outlines_subset params) ho
  | declaration d => exact ho

/-! ## Occurrences of occurrences -/

/-- Whether occurrences comprise all that their expressions consist of. -/
def Whole (l : List Occurrence) : Prop :=
  ∀ e, .expr e ∈ l → ∀ o ∈ e.occurrences, o ∈ l

theorem whole_nil : Whole [] :=
  fun _ he => by cases he

theorem Whole.append {l l' : List Occurrence} (hl : Whole l) (hl' : Whole l') :
    Whole (l ++ l') := by
  intro e he o ho
  rcases List.mem_append.mp he with he | he
  · exact List.mem_append_left _ (hl e he o ho)
  · exact List.mem_append_right _ (hl' e he o ho)

theorem Whole.type_cons {l : List Occurrence} (hl : Whole l) (name : TypeName) :
    Whole (.type name :: l) := by
  intro e he o ho
  rcases List.mem_cons.mp he with he | he
  · cases he
  · exact List.mem_cons_of_mem _ (hl e he o ho)

theorem whole_flatMap {α : Type} {f : α → List Occurrence} {l : List α}
    (h : ∀ a ∈ l, Whole (f a)) : Whole (l.flatMap f) := by
  intro e he o ho
  obtain ⟨a, ha, he⟩ := List.mem_flatMap.mp he
  exact List.mem_flatMap.mpr ⟨a, ha, h a ha e he o ho⟩

/-- An expression with parts that are whole is whole. -/
theorem Whole.expr_cons {e : Expr} {l : List Occurrence} (hl : Whole l)
    (he : e.occurrences = .expr e :: l) : Whole e.occurrences := by
  rw [he]
  intro e' he' o ho
  rcases List.mem_cons.mp he' with heq | hmem
  · cases heq
    rwa [he] at ho
  · exact List.mem_cons_of_mem _ (hl e' hmem o ho)

mutual

theorem Expr.whole_occurrences (e : Expr) : Whole e.occurrences := by
  cases e with
  | identifier leaf => exact whole_nil.expr_cons rfl
  | literal leaf kind => exact whole_nil.expr_cons rfl
  | parens e => exact e.whole_occurrences.expr_cons rfl
  | unary op e => exact e.whole_occurrences.expr_cons rfl
  | step op e => exact e.whole_occurrences.expr_cons rfl
  | binary op left right =>
    exact (left.whole_occurrences.append right.whole_occurrences).expr_cons rfl
  | assign op left right =>
    exact (left.whole_occurrences.append right.whole_occurrences).expr_cons rfl
  | conditional cond first second =>
    exact (cond.whole_occurrences.append
      (first.whole_occurrences.append second.whole_occurrences)).expr_cons rfl
  | call callee args =>
    exact (callee.whole_occurrences.append (Expr.whole_occurrencesAll args)).expr_cons rfl
  | index base place =>
    exact (base.whole_occurrences.append place.whole_occurrences).expr_cons rfl
  | member e field => exact e.whole_occurrences.expr_cons rfl
  | arrow e field => exact e.whole_occurrences.expr_cons rfl
  | sizeOf type => exact (whole_nil.type_cons type).expr_cons rfl
  | cast type e => exact (e.whole_occurrences.type_cons type).expr_cons rfl
  | list head tail =>
    exact (head.whole_occurrences.append (Expr.whole_occurrencesAll tail)).expr_cons rfl

theorem Expr.whole_occurrencesAll (es : List Expr) :
    Whole (Expr.occurrences.occurrencesAll es) := by
  cases es with
  | nil => exact whole_nil
  | cons e rest => exact e.whole_occurrences.append (Expr.whole_occurrencesAll rest)

end

theorem Declarator.whole_occurrences (d : Declarator) : Whole d.occurrences := by
  refine Whole.type_cons (.append (whole_flatMap fun dim _ => ?_) ?_) d.type
  · cases dim with
    | sized size => exact size.whole_occurrences
    | unsized => exact whole_nil
  · exact whole_flatMap fun init _ => init.whole_occurrences

theorem Instr.whole_occurrences (i : Instr) : Whole i.occurrences := by
  cases i with
  | expr e => exact e.whole_occurrences
  | declare d => exact whole_flatMap fun d' _ => d'.whole_occurrences
  | «return» value => exact whole_flatMap fun e _ => e.whole_occurrences
  | _ => exact whole_nil

mutual

theorem Stmt.whole_occurrences (s : Stmt) : Whole s.occurrences := by
  cases s with
  | block body => exact Stmt.whole_occurrencesAll body
  | line instrs => exact whole_flatMap fun i _ => i.whole_occurrences
  | label name => exact whole_nil
  | branches conditional otherwise =>
    refine (Stmt.whole_occurrencesBranches conditional).append ?_
    cases otherwise with
    | none => exact whole_nil
    | some body => exact body.whole_occurrences
  | «while» cond body => exact cond.whole_occurrences.append body.whole_occurrences
  | doWhile cond body => exact cond.whole_occurrences.append body.whole_occurrences
  | «for» init cond step body =>
    have hinstr : ∀ i : Option Instr, Whole (i.toList.flatMap Instr.occurrences) :=
      fun _ => whole_flatMap fun i _ => i.whole_occurrences
    exact (hinstr init).append ((hinstr cond).append ((hinstr step).append body.whole_occurrences))
  | «switch» selector parts =>
    exact selector.whole_occurrences.append (Stmt.whole_occurrencesCases parts)

theorem Stmt.whole_occurrencesAll (body : List Stmt) :
    Whole (Stmt.occurrences.occurrencesAll body) := by
  cases body with
  | nil => exact whole_nil
  | cons s rest => exact s.whole_occurrences.append (Stmt.whole_occurrencesAll rest)

theorem Stmt.whole_occurrencesBranches (conditional : List (Expr × Stmt)) :
    Whole (Stmt.occurrences.occurrencesBranches conditional) := by
  match conditional with
  | [] => exact whole_nil
  | (cond, body) :: rest =>
    exact cond.whole_occurrences.append
      (body.whole_occurrences.append (Stmt.whole_occurrencesBranches rest))

theorem Stmt.whole_occurrencesCases (parts : List (Option Expr × List Stmt)) :
    Whole (Stmt.occurrences.occurrencesCases parts) := by
  match parts with
  | [] => exact whole_nil
  | (value, body) :: rest =>
    exact (whole_flatMap fun e _ => e.whole_occurrences).append
      ((Stmt.whole_occurrencesAll body).append (Stmt.whole_occurrencesCases rest))

end

/-- What the expressions of a program consist of occurs in the program. -/
theorem Program.whole_occurrences (p : Program) : Whole p.occurrences := by
  refine whole_flatMap fun i _ => ?_
  have hdeclarators : ∀ ds : List Declarator, Whole (ds.flatMap Declarator.occurrences) :=
    fun _ => whole_flatMap fun d _ => d.whole_occurrences
  cases i with
  | directive token => exact whole_nil
  | struct name fields => exact hdeclarators fields
  | function returnType name params body =>
    exact ((hdeclarators params).append (Stmt.whole_occurrencesAll body)).type_cons returnType
  | prototype returnType name params => exact (hdeclarators params).type_cons returnType
  | declaration d => exact hdeclarators d.all

end MiniC
