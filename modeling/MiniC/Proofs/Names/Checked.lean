import MiniC.Proofs.Names.Analysis
import MiniC.Proofs.Names.Steady

set_option autoImplicit false

/-! # What the analysis establishes

A program that the analysis accepts is linked: the analysis looks at every expression where the
names mean what the judgement says that they mean, and it goes on only if the names and calls in it
make sense there. -/

namespace MiniC

open Traced Layer

/-- What is true of a finding of the analysis: it is a meaning that an occurrence was found to
have. -/
def Linkage.Agrees (L : Linkage) : Finding → Prop
  | .meaning leaf e => L.resolves leaf e

/-- Whether a name that could be that of the function that is there without a declaration is known
as such. -/
def Linkage.Knows (L : Linkage) (leaf : Leaf) : Prop :=
  leaf.token.text = printName → L.isPrint leaf.token.id

/-- Whether a state of the analysis has a current scope of the given kind with the given layers
around it, and names mean there what `Γ` says. -/
def Analysis.Stands (a : Analysis) (kind : ScopeKind) (ls : List Layer) (Γ : Meanings) : Prop :=
  ∃ names, a.At (⟨kind, names⟩ :: ls) ∧ meanings (⟨kind, names⟩ :: ls) = Γ

namespace Analysis.Stands

variable {a a' : Analysis} {kind : ScopeKind} {ls : List Layer} {Γ : Meanings}

theorem congr (ha : a.Stands kind ls Γ) (hsame : a'.scopes = a.scopes ∧ a'.current = a.current) :
    a'.Stands kind ls Γ := by
  obtain ⟨names, hat, hΓ⟩ := ha
  exact ⟨names, hat.congr hsame.1 hsame.2, hΓ⟩

theorem lookup (ha : a.Stands kind ls Γ) (id : Nat) :
    Γ id = (a.lookup id).map Entity.meaning := by
  obtain ⟨names, hat, rfl⟩ := ha
  rw [hat.lookup, meanings]

theorem allowsJump (ha : a.Stands kind ls Γ) (kinds : List ScopeKind) :
    a.allowsJump kinds = allows (⟨kind, []⟩ :: ls) kinds := by
  obtain ⟨names, hat, -⟩ := ha
  rw [hat.allowsJump, allows_kind]

end Analysis.Stands

namespace Check

variable {α β : Type}

/-! ## What steps lead to -/

/-- From where names mean what `Γ` says, a step leads to where they mean what `Δ` says, and has a
result of which `Q` is true, if it has one. -/
def Leads (L : Linkage) (kind : ScopeKind) (ls : List Layer) (Γ : Meanings) (x : Check α)
    (Δ : Meanings) (Q : α → Prop) : Prop :=
  ∀ a : Analysis, a.Stands kind ls Γ →
    Yields L.Agrees x a fun r a' => a'.Stands kind ls Δ ∧ Q r

section

variable {L : Linkage} {kind : ScopeKind} {ls : List Layer} {Γ Δ Θ : Meanings}

theorem Leads.imp {x : Check α} {P Q : α → Prop} (hx : Leads L kind ls Γ x Δ P)
    (h : ∀ r, P r → Q r) : Leads L kind ls Γ x Δ Q :=
  fun a ha => (hx a ha).imp fun r _ h' => ⟨h'.1, h r h'.2⟩

theorem Leads.bind {x : Check α} {f : α → Check β} {P : α → Prop} {Q : β → Prop}
    (hx : Leads L kind ls Γ x Δ P) (hf : ∀ r, P r → Leads L kind ls Δ (f r) Θ Q) :
    Leads L kind ls Γ (x >>= f) Θ Q :=
  fun a ha => (hx a ha).bind fun r t ht => hf r ht.2 t ht.1

theorem leads_pure {r : α} {Q : α → Prop} (h : Q r) : Leads L kind ls Γ (pure r) Γ Q :=
  fun _ ha => yields_pure ⟨ha, h⟩

theorem leads_fail {cause : SemanticCause} {pos : Option Position} {Q : α → Prop} :
    Leads L kind ls Γ (fail cause pos) Δ Q :=
  fun _ _ => yields_throw

theorem leads_failAt {cause : SemanticCause} {pos : Position} {Q : α → Prop} :
    Leads L kind ls Γ (failAt cause pos) Δ Q :=
  leads_fail

theorem leads_get {f : Analysis → Check α} {Q : α → Prop}
    (hf : ∀ a : Analysis, a.Stands kind ls Γ → Leads L kind ls Γ (f a) Δ Q) :
    Leads L kind ls Γ (get >>= f) Δ Q := by
  intro a ha
  refine (yields_get (Q := fun r t => r = a ∧ t = a) ⟨rfl, rfl⟩).bind ?_
  rintro r t ⟨rfl, rfl⟩
  exact hf _ ha _ ha

/-- A step that changes no scope leads to where it began. -/
theorem Steady.leads {x : Check α} {Q : α → Prop} (hx : Steady x) (h : ∀ r, Q r) :
    Leads L kind ls Γ x Γ Q :=
  fun a ha => (hx.still _ a).imp fun r _ hsame => ⟨ha.congr hsame, h r⟩

theorem Steady.leads_bind {x : Check α} {f : α → Check β} {Q : β → Prop} (hx : Steady x)
    (hf : ∀ r, Leads L kind ls Γ (f r) Δ Q) : Leads L kind ls Γ (x >>= f) Δ Q :=
  (hx.leads (Q := fun _ => True) fun _ => trivial).bind fun r _ => hf r

/-- A step that ends with an error in one case, and goes on in the other one. -/
theorem leads_reject {c : Prop} [Decidable c] {cause : SemanticCause} {pos : Position}
    {f : α → Check β} {x : Check β} {Q : β → Prop} (hx : ¬c → Leads L kind ls Γ x Δ Q) :
    Leads L kind ls Γ (if c then failAt cause pos >>= f else x) Δ Q := by
  split
  · exact (leads_failAt (Δ := Γ) (Q := fun _ => False)).bind fun _ h => h.elim
  · exact hx ‹_›

end

/-! ## Expressions -/

section

variable {L : Linkage} {kind : ScopeKind} {ls : List Layer} {Γ Δ Θ : Meanings}

theorem leads_variableType (leaf : Leaf) :
    Leads L kind ls Γ (variableType leaf) Γ fun _ => (Expr.identifier leaf).Linked L Γ := by
  refine leads_get fun a ha => ?_
  have hlookup := ha.lookup leaf.token.id
  cases hmeaning : a.lookup leaf.token.id with
  | none => exact leads_failAt
  | some e =>
    rw [hmeaning] at hlookup
    rcases e with v | f
    · intro a ha
      have hnote : Yields L.Agrees (note (.meaning leaf (.variable v)) : Check Unit) a
          fun _ t => L.resolves leaf (.variable v) ∧ t = a :=
        yields_note fun h => ⟨h, rfl⟩
      refine hnote.bind ?_
      rintro _ t ⟨hresolves, rfl⟩
      exact (steady_annotate _ _).leads (fun _ => ⟨v, hresolves, hlookup⟩) t ha
    · exact leads_failAt

theorem leads_calledFunction (callee : Expr) (count : Nat) (hnames : ∀ l ∈ callee.names, L.Knows l) :
    Leads L kind ls Γ (calledFunction callee count) Γ fun f? =>
      callee.IsCallee L Γ count ∧ ∀ f ∈ f?, f.params.length = count := by
  cases callee with
  | identifier leaf =>
    refine leads_get fun a ha => ?_
    have hlookup := ha.lookup leaf.token.id
    cases hmeaning : a.lookup leaf.token.id with
    | none =>
      rw [hmeaning] at hlookup
      dsimp only
      split
      · rename_i hprint
        split
        · exact leads_failAt
        · refine leads_pure ⟨⟨leaf, rfl, .inr ⟨hlookup, hprint, ?_⟩⟩, fun _ h => by cases h⟩
          exact hnames leaf (List.mem_singleton_self leaf) hprint
      · exact leads_failAt
    | some e =>
      rw [hmeaning] at hlookup
      rcases e with v | f
      · exact leads_failAt
      · dsimp only
        split
        · exact leads_failAt
        · split
          · exact leads_failAt
          · have hcount : f.params.length = count := by omega
            intro a ha
            refine (yields_note (Q := fun _ t => t = a) fun _ => rfl).bind ?_
            rintro _ t rfl
            refine leads_pure ⟨⟨leaf, rfl, .inl ?_⟩, ?_⟩ t ha
            · rw [hlookup, ← hcount]
              rfl
            · rintro g ⟨⟩
              exact hcount
  | _ => exact leads_failAt

mutual

theorem leads_exprType (e : Expr) (hnames : ∀ l ∈ e.names, L.Knows l) :
    Leads L kind ls Γ (exprType e) Γ fun _ => e.Linked L Γ := by
  cases e with
  | identifier leaf =>
    rw [exprType]
    exact leads_variableType leaf
  | literal leaf k =>
    rw [exprType]
    exact (steady_annotate _ _).leads fun _ => trivial
  | parens e =>
    rw [exprType]
    exact leads_exprType e hnames
  | unary op e =>
    rw [exprType]
    refine leads_reject fun hplace => (leads_exprType e hnames).bind fun t he => ?_
    refine (steady_unaryType _ _ _ _).leads fun _ => ⟨fun hop => ?_, he⟩
    -- The address of something that has no place was rejected before the operand was looked at.
    by_contra hnot
    exact hplace (by simp [hop, hnot])
  | step op e =>
    rw [exprType]
    refine leads_reject fun hplace => (leads_exprType e hnames).bind fun t he => ?_
    refine leads_reject fun _ => leads_reject fun _ => leads_pure ⟨?_, he⟩
    simpa using hplace
  | binary op left right =>
    rw [Expr.names, List.forall_mem_append] at hnames
    rw [exprType]
    refine (leads_exprType left hnames.1).bind fun l hl => ?_
    refine (leads_exprType right hnames.2).bind fun r hr => ?_
    exact (steady_operatorType _ _ _ _).leads fun _ => ⟨hl, hr⟩
  | assign op left right =>
    rw [Expr.names, List.forall_mem_append] at hnames
    rw [exprType]
    refine leads_reject fun hplace => (leads_exprType left hnames.1).bind fun l hl => ?_
    refine leads_reject fun _ => (leads_exprType right hnames.2).bind fun r hr => ?_
    have hlinked : (Expr.assign op left right).Linked L Γ := by
      exact ⟨by simpa using hplace, hl, hr⟩
    -- The types that an assignment works with do not matter to names: with an operator or without,
    -- the rest leaves the scopes alone.
    have hrest (result : CType) : Leads L kind ls Γ (do
        implicitCast .cast result l left.pos
        pure l) Γ fun _ => (Expr.assign op left right).Linked L Γ :=
      (steady_implicitCast _ _ _ _).leads_bind fun _ => leads_pure hlinked
    cases op with
    | none => exact (steady_pure r).leads_bind hrest
    | some op => exact (steady_operatorType _ _ _ _).leads_bind hrest
  | conditional cond first second =>
    rw [Expr.names, List.forall_mem_append, List.forall_mem_append] at hnames
    rw [exprType]
    refine (leads_exprType cond hnames.1.1).bind fun t hcond => ?_
    refine (steady_condition _ _).leads_bind fun _ => ?_
    refine (leads_exprType first hnames.1.2).bind fun t₁ hfirst => ?_
    refine (leads_exprType second hnames.2).bind fun t₂ hsecond => ?_
    exact (steady_widerType _ _ _ _).leads fun _ => ⟨hcond, hfirst, hsecond⟩
  | call callee args =>
    rw [Expr.names, List.forall_mem_append] at hnames
    rw [exprType]
    refine (leads_calledFunction callee args.length hnames.1).bind fun f? hcallee => ?_
    cases f? with
    | none =>
      refine (leads_argTypes args hnames.2).bind fun _ hargs => ?_
      exact leads_pure ⟨hcallee.1, hargs⟩
    | some f =>
      refine (leads_argsFor f.params args (hcallee.2 f rfl) hnames.2).bind fun _ hargs => ?_
      exact leads_pure ⟨hcallee.1, hargs⟩
  | index base i =>
    rw [Expr.names, List.forall_mem_append] at hnames
    rw [exprType]
    refine (leads_exprType base hnames.1).bind fun b hbase => ?_
    cases b.pointee? with
    | none => exact leads_failAt
    | some pointee =>
      refine (leads_exprType i hnames.2).bind fun t hi => ?_
      exact leads_reject fun _ => leads_pure ⟨hbase, hi⟩
  | member e field =>
    rw [exprType]
    refine (leads_exprType e hnames).bind fun t he => ?_
    exact steady_get.leads_bind fun a => (steady_fieldType _ _ _ _ _).leads fun _ => he
  | arrow e field =>
    rw [exprType]
    refine (leads_exprType e hnames).bind fun t he => ?_
    exact steady_get.leads_bind fun a => (steady_fieldType _ _ _ _ _).leads fun _ => he
  | sizeOf type =>
    rw [exprType]
    exact (steady_resolve type).leads_bind fun _ => leads_pure trivial
  | cast type e =>
    rw [exprType]
    refine (steady_resolve type).leads_bind fun target => ?_
    refine leads_reject fun _ => (leads_exprType e hnames).bind fun src he => ?_
    refine leads_reject fun _ => leads_reject fun _ => leads_reject fun _ => ?_
    exact leads_pure he
  | list head tail =>
    rw [exprType]
    exact leads_failAt

theorem leads_argTypes (args : List Expr) (hnames : ∀ l ∈ Expr.names.namesAll args, L.Knows l) :
    Leads L kind ls Γ (exprType.argTypes args) Γ fun _ => Expr.Linked.AllLinked L Γ args := by
  cases args with
  | nil =>
    rw [exprType.argTypes]
    exact leads_pure trivial
  | cons e rest =>
    rw [Expr.names.namesAll, List.forall_mem_append] at hnames
    rw [exprType.argTypes]
    refine (leads_exprType e hnames.1).bind fun _ he => ?_
    exact (leads_argTypes rest hnames.2).imp fun _ hrest => ⟨he, hrest⟩

theorem leads_argsFor (params : List Variable) (args : List Expr)
    (hlength : params.length = args.length)
    (hnames : ∀ l ∈ Expr.names.namesAll args, L.Knows l) :
    Leads L kind ls Γ (exprType.argsFor params args) Γ fun _ =>
      Expr.Linked.AllLinked L Γ args := by
  cases args with
  | nil =>
    obtain rfl := List.length_eq_zero_iff.mp hlength
    rw [exprType.argsFor]
    · exact leads_pure trivial
    · exact fun _ _ _ _ h => by cases h
  | cons e rest =>
    cases params with
    | nil => cases hlength
    | cons param params =>
      rw [Expr.names.namesAll, List.forall_mem_append] at hnames
      rw [exprType.argsFor]
      refine (leads_exprType e hnames.1).bind fun t he => ?_
      refine (steady_implicitCast _ _ _ _).leads_bind fun _ => ?_
      refine (leads_argsFor params rest (Nat.succ.inj hlength) hnames.2).imp fun _ hrest => ?_
      exact ⟨he, hrest⟩

end

mutual

theorem leads_initializer (target : CType) (e : Expr) (hnames : ∀ l ∈ e.names, L.Knows l) :
    Leads L kind ls Γ (initializer target e) Γ fun _ => e.Linked L Γ := by
  by_cases hlist : ∃ head tail, e = .list head tail
  · obtain ⟨head, tail, rfl⟩ := hlist
    rw [Expr.names, List.forall_mem_append] at hnames
    rw [initializer]
    cases target.pointee? with
    | none => exact leads_failAt
    | some element =>
      refine (leads_initializer element head hnames.1).bind fun _ hhead => ?_
      exact (leads_initializers element tail hnames.2).imp fun _ htail => ⟨hhead, htail⟩
  · rw [initializer]
    · refine (leads_exprType e hnames).bind fun t he => ?_
      exact (steady_implicitCast _ _ _ _).leads fun _ => he
    · exact fun head tail h => hlist ⟨head, tail, h⟩

theorem leads_initializers (target : CType) (items : List Expr)
    (hnames : ∀ l ∈ Expr.names.namesAll items, L.Knows l) :
    Leads L kind ls Γ (initializer.initializers target items) Γ fun _ =>
      Expr.Linked.AllLinked L Γ items := by
  cases items with
  | nil =>
    rw [initializer.initializers]
    exact leads_pure trivial
  | cons e rest =>
    rw [Expr.names.namesAll, List.forall_mem_append] at hnames
    rw [initializer.initializers]
    refine (leads_initializer target e hnames.1).bind fun _ he => ?_
    exact (leads_initializers target rest hnames.2).imp fun _ hrest => ⟨he, hrest⟩

end

/-! ## Declarations -/

theorem leads_dimensions (dims : List Dim) (hnames : ∀ l ∈ dims.flatMap Dim.names, L.Knows l) :
    Leads L kind ls Γ (dimensions dims) Γ fun _ => ∀ size, .sized size ∈ dims → size.Linked L Γ := by
  induction dims with
  | nil => exact leads_pure fun _ h => by cases h
  | cons dim rest ih =>
    rw [List.flatMap_cons, List.forall_mem_append] at hnames
    cases dim with
    | unsized =>
      refine (ih hnames.2).imp fun _ hrest size hsize => hrest size ?_
      simpa using hsize
    | sized size =>
      refine (leads_exprType size hnames.1).bind fun t hsize => ?_
      refine leads_reject fun _ => (ih hnames.2).imp fun _ hrest size' hsize' => ?_
      rcases List.mem_cons.mp hsize' with heq | hmem
      · cases heq
        exact hsize
      · exact hrest size' hmem

theorem leads_declaredType (d : Declarator) (hnames : ∀ l ∈ d.sizeNames, L.Knows l) :
    Leads L kind ls Γ (declaredType d) Γ fun _ => d.SizesLinked L Γ := by
  refine (steady_resolve d.type).leads_bind fun t => ?_
  exact (leads_dimensions d.dims hnames).bind fun _ hsizes => leads_pure hsizes

theorem leads_put (id : Nat) (e : Entity) :
    Leads L kind ls Γ (put id e) (Γ.set id e.meaning) fun _ => True := by
  rintro a ⟨names, hat, rfl⟩
  obtain ⟨i, hcurrent, names', hat', hlookup⟩ := hat.put id e
  refine (yields_get (Q := fun r t => r = a ∧ t = a) ⟨rfl, rfl⟩).bind ?_
  rintro _ _ ⟨rfl, rfl⟩
  rw [hcurrent]
  refine yields_modify ⟨⟨names', hat', ?_⟩, trivial⟩
  funext n
  by_cases hn : n = id
  · subst hn
    rw [Meanings.set_same, meanings, List.findSome?_cons, hlookup, if_pos rfl]
    rfl
  · rw [Meanings.set_other _ _ hn, meanings, meanings, List.findSome?_cons, List.findSome?_cons,
      hlookup, if_neg hn]

/-- A variable is declared only where its name is not declared already. -/
theorem leads_declare (v : Variable) :
    Leads L kind ls Γ (declare v) (Γ.declare v.leaf) fun _ =>
      ls = [] → Γ v.leaf.token.id = none := by
  refine leads_get fun a ha => ?_
  cases hhere : a.lookupHere v.name.id with
  | some e => exact leads_failAt
  | none =>
    refine (leads_put v.name.id (.variable v)).imp ?_
    rintro _ - rfl
    obtain ⟨names, hat, rfl⟩ := ha
    rw [hat.lookupHere] at hhere
    rw [meanings, List.findSome?_cons, show names.lookup v.leaf.token.id = none from hhere]
    rfl

theorem leads_declarator (d : Declarator) (hnames : ∀ l ∈ d.names, L.Knows l) :
    Leads L kind ls Γ (declarator d) (Γ.declare d.name) fun _ =>
      d.Linked L Γ ∧ (ls = [] → Γ d.name.token.id = none) := by
  rw [Declarator.names, List.forall_mem_append] at hnames
  refine (leads_declaredType d hnames.1).bind fun declared hsizes => ?_
  have hdeclare (t : CType) (hinit : ∀ init ∈ d.init, init.Linked L Γ) :
      Leads L kind ls Γ (do
        if t.isVoid then failAt .voidVariable d.pos
        declare ⟨d.name, t⟩) (Γ.declare d.name) fun _ =>
          d.Linked L Γ ∧ (ls = [] → Γ d.name.token.id = none) :=
    leads_reject fun _ => (leads_declare ⟨d.name, t⟩).imp fun _ h => ⟨⟨hsizes, hinit⟩, h⟩
  cases hd : d.init with
  | none =>
    rw [hd] at hdeclare
    refine Leads.bind (P := fun _ => True) ?_ fun t _ => hdeclare t fun _ h => by cases h
    exact leads_reject fun _ => leads_reject fun _ => leads_pure trivial
  | some init =>
    rw [hd] at hdeclare hnames
    have hinit : ∀ l ∈ init.names, L.Knows l := by
      simpa using hnames.2
    refine Leads.bind (P := fun _ => init.Linked L Γ) ?_ fun t h => hdeclare t ?_
    · unfold initializedType
      split
      · exact leads_reject fun _ => (leads_exprType init hinit).bind fun t h => leads_pure h
      · exact (leads_initializer declared init hinit).bind fun _ h => leads_pure h
    · rintro _ ⟨⟩
      exact h

theorem leads_declarators (ds : List Declarator)
    (hnames : ∀ l ∈ ds.flatMap Declarator.names, L.Knows l) :
    Leads L kind ls Γ (ds.forM declarator) (Γ.declareAll (ds.map (·.name))) fun _ =>
      Declarator.AllLinked L Γ ds ∧ (ls = [] → Declarator.GlobalsLinked L Γ ds) := by
  induction ds generalizing Γ with
  | nil => exact leads_pure ⟨trivial, fun _ => trivial⟩
  | cons d rest ih =>
    rw [List.flatMap_cons, List.forall_mem_append] at hnames
    refine (leads_declarator d hnames.1).bind fun _ hd => (ih hnames.2).imp fun _ hrest => ?_
    exact ⟨⟨hd.1, hrest.1⟩, fun hls => ⟨hd.1, hd.2 hls, hrest.2 hls⟩⟩

/-! ## Instructions -/

theorem leads_modifyScope {f : StaticScope → StaticScope}
    (hf : ∀ s, (f s).layer = s.layer ∧ (f s).parent = s.parent) (i : Nat) :
    Leads L kind ls Γ (modifyScope i f) Γ fun _ => True := by
  rintro a ⟨names, hat, hΓ⟩
  exact yields_modify ⟨⟨names, hat.modify_same hf i, hΓ⟩, trivial⟩

theorem leads_returnFrom (f : Signature) (value : Option Expr)
    (hnames : ∀ l ∈ value.toList.flatMap Expr.names, L.Knows l) :
    Leads L kind ls Γ (returnFrom f value) Γ fun _ => ∀ e ∈ value, e.Linked L Γ := by
  cases value with
  | none =>
    refine Steady.leads ?_ fun _ _ h => by cases h
    exact Closed.ite (steady_pure _) (steady_fail _ _)
  | some e =>
    refine leads_reject fun _ => (leads_exprType e (by simpa using hnames)).bind fun t he => ?_
    refine (steady_implicitCast _ _ _ _).leads fun _ => ?_
    rintro _ ⟨⟩
    exact he

/-- An instruction is looked at where the jumps are allowed that the layers allow. -/
theorem leads_instr (i : Instr) (hnames : ∀ l ∈ i.names, L.Knows l)
    (hgotos : ∀ l ∈ i.gotos, L.hasGotos) :
    Leads L kind ls Γ (instr i) (Γ.declareAll i.declared) fun _ =>
      i.Linked L Γ (jumps (⟨kind, []⟩ :: ls)) := by
  cases i with
  | expr e => exact (leads_exprType e hnames).bind fun t he => leads_pure he
  | declare d => exact (leads_declarators d.all hnames).imp fun _ h => h.1
  | «break» token =>
    refine leads_get fun a ha => ?_
    rw [ha.allowsJump]
    split
    · exact leads_failAt
    · rename_i hallows
      have hbreak : (jumps (⟨kind, []⟩ :: ls)).break := by simpa [jumps] using hallows
      exact leads_pure hbreak
  | «continue» token =>
    refine leads_get fun a ha => ?_
    rw [ha.allowsJump]
    split
    · exact leads_failAt
    · rename_i hallows
      have hcontinue : (jumps (⟨kind, []⟩ :: ls)).continue := by simpa [jumps] using hallows
      exact leads_pure hcontinue
  | «return» value =>
    refine leads_get fun a ha => ?_
    split
    · exact leads_fail
    · exact leads_returnFrom _ value hnames
  | goto label =>
    have hgoto := hgotos label (List.mem_singleton_self label)
    refine leads_get fun a ha => ?_
    cases a.functionScope? with
    | none => exact leads_failAt
    | some i =>
      dsimp only
      exact (leads_modifyScope (fun s => by exact ⟨rfl, rfl⟩) i).imp fun _ _ => hgoto

theorem leads_instrs (is : List Instr) (hnames : ∀ l ∈ is.flatMap Instr.names, L.Knows l)
    (hgotos : ∀ l ∈ is.flatMap Instr.gotos, L.hasGotos) :
    Leads L kind ls Γ (is.forM instr) (Γ.declareAll (is.flatMap Instr.declared)) fun _ =>
      Instr.AllLinked L Γ (jumps (⟨kind, []⟩ :: ls)) is := by
  induction is generalizing Γ with
  | nil => exact leads_pure trivial
  | cons i rest ih =>
    rw [List.flatMap_cons, List.forall_mem_append] at hnames hgotos
    rw [List.flatMap_cons, Meanings.declareAll_append]
    refine (leads_instr i hnames.1 hgotos.1).bind fun _ hi => ?_
    exact (ih hnames.2 hgotos.2).imp fun _ hrest => ⟨hi, hrest⟩

theorem leads_instrType (i : Instr) (hnames : ∀ l ∈ i.names, L.Knows l) :
    Leads L kind ls Γ (instrType i) Γ fun _ => i.ValueLinked L Γ := by
  cases i with
  | expr e =>
    refine (leads_exprType e hnames).bind fun t he => leads_pure ?_
    rintro _ ⟨⟩
    exact he
  | _ => exact leads_fail

theorem leads_loopCondition (cond : Option Instr)
    (hnames : ∀ l ∈ cond.toList.flatMap Instr.names, L.Knows l) :
    Leads L kind ls Γ (loopCondition cond) Γ fun _ => ∀ i ∈ cond, i.ValueLinked L Γ := by
  cases cond with
  | none => exact leads_pure fun _ h => by cases h
  | some i =>
    refine (leads_instrType i (by simpa using hnames)).bind fun _ hi => ?_
    refine (steady_condition _ _).leads fun _ => ?_
    rintro _ ⟨⟩
    exact hi

theorem leads_loopStep (step : Option Instr)
    (hnames : ∀ l ∈ step.toList.flatMap Instr.names, L.Knows l) :
    Leads L kind ls Γ (loopStep step) Γ fun _ => ∀ i ∈ step, i.ValueLinked L Γ := by
  cases step with
  | none => exact leads_pure fun _ h => by cases h
  | some i =>
    refine (leads_instrType i (by simpa using hnames)).bind fun _ hi => leads_pure ?_
    rintro _ ⟨⟩
    exact hi

theorem leads_loopStart (init : Option Instr)
    (hnames : ∀ l ∈ init.toList.flatMap Instr.names, L.Knows l)
    (hgotos : ∀ l ∈ init.toList.flatMap Instr.gotos, L.hasGotos) :
    Leads L kind ls Γ (match init with | none => pure () | some i => instr i)
      (Γ.declareAll (init.toList.flatMap Instr.declared)) fun _ =>
        ∀ i ∈ init, i.Linked L Γ (jumps (⟨kind, []⟩ :: ls)) := by
  cases init with
  | none => exact leads_pure fun _ h => by cases h
  | some i =>
    simp only [Option.toList_some, List.flatMap_cons, List.flatMap_nil, List.append_nil] at *
    refine (leads_instr i hnames hgotos).imp fun _ hi => ?_
    rintro _ ⟨⟩
    exact hi

theorem leads_caseLabel (value : Option Expr)
    (hnames : ∀ l ∈ value.toList.flatMap Expr.names, L.Knows l) :
    Leads L kind ls Γ (caseLabel value) Γ fun _ => ∀ e ∈ value, e.Linked L Γ := by
  cases value with
  | none => exact leads_pure fun _ h => by cases h
  | some e =>
    refine (leads_exprType e (by simpa using hnames)).bind fun t he => ?_
    refine (Closed.ite (steady_failAt _ _) (steady_pure _)).leads fun _ => ?_
    rintro _ ⟨⟩
    exact he

/-! ## Statements -/

theorem yields_enter {a : Analysis} (ha : a.Stands kind ls Γ) (inner : ScopeKind)
    (f : Option Signature) :
    Yields L.Agrees (enter inner f) a fun _ t =>
      ∃ l, l.kind = kind ∧ meanings (l :: ls) = Γ ∧ t.Stands inner (l :: ls) Γ := by
  obtain ⟨names, hat, hΓ⟩ := ha
  refine yields_modify ⟨⟨kind, names⟩, rfl, hΓ, [], hat.enter inner f, ?_⟩
  rw [meanings_opened, hΓ]

theorem yields_leave {a : Analysis} {l : Layer} (ha : a.Stands kind (l :: ls) Δ) :
    Yields L.Agrees leave a fun _ t => t.Stands l.kind ls (meanings (l :: ls)) := by
  obtain ⟨names, hat, -⟩ := ha
  exact yields_modify ⟨l.names, hat.leave, rfl⟩

/-- What is looked at in a scope of its own does not change what names mean outside it. -/
theorem leads_scope {body : Check Unit} {inner : ScopeKind} {f : Option Signature} {Q : Prop}
    (hbody : ∀ l, l.kind = kind → Leads L inner (l :: ls) Γ body Δ fun _ => Q) :
    Leads L kind ls Γ (do enter inner f; body; leave) Γ fun _ => Q := by
  intro a ha
  refine (yields_enter ha inner f).bind ?_
  rintro _ t ⟨l, rfl, rfl, ht⟩
  refine (hbody l rfl t ht).bind fun _ u hu => ?_
  exact (yields_leave hu.1).imp fun _ _ h => ⟨h, hu.2⟩

/-- What is looked at in a scope of its own, and what comes after it. -/
theorem leads_scope_bind {body : Check Unit} {rest : Check β} {inner : ScopeKind}
    {f : Option Signature} {Q : Prop} {R : β → Prop}
    (hbody : ∀ l, l.kind = kind → Leads L inner (l :: ls) Γ body Δ fun _ => Q)
    (hrest : Q → Leads L kind ls Γ rest Θ R) :
    Leads L kind ls Γ (do enter inner f; body; leave; rest) Θ R := by
  have h := (leads_scope (f := f) hbody).bind fun _ => hrest
  simpa only [LawfulMonad.bind_assoc] using h

mutual

theorem leads_stmt {kind : ScopeKind} {ls : List Layer} {Γ : Meanings} (s : Stmt)
    (hnames : ∀ l ∈ s.names, L.Knows l)
    (hgotos : ∀ l ∈ s.gotos, L.hasGotos) :
    Leads L kind ls Γ (stmt s) (Γ.declareAll s.declared) fun _ =>
      s.Linked L Γ (jumps (⟨kind, []⟩ :: ls)) := by
  cases s with
  | block body =>
    rw [stmt]
    have hbody (l : Layer) (hl : l.kind = kind) : Leads L .block (l :: ls) Γ (stmt.stmts body)
        (Γ.declareAll (body.flatMap Stmt.declared))
        fun _ => Stmt.Linked.AllLinked L Γ (jumps (⟨kind, []⟩ :: ls)) body := by
      rw [← hl, ← jumps_block l ls]
      exact leads_stmts body hnames hgotos
    exact leads_scope hbody
  | line instrs =>
    rw [stmt]
    exact leads_instrs instrs hnames hgotos
  | label name =>
    rw [stmt]
    refine leads_get fun a ha => ?_
    cases a.functionScope? with
    | none => exact leads_failAt
    | some i =>
      dsimp only
      refine leads_reject fun _ => ?_
      exact (leads_modifyScope (fun s => by exact ⟨rfl, rfl⟩) i).imp fun _ _ => trivial
  | branches conditional otherwise =>
    rw [Stmt.names, List.forall_mem_append] at hnames
    rw [Stmt.gotos, List.forall_mem_append] at hgotos
    rw [stmt]
    refine (leads_branches conditional hnames.1 hgotos.1).bind fun _ hconditional => ?_
    exact (leads_elseBranch otherwise hnames.2 hgotos.2).imp fun _ h => ⟨hconditional, h⟩
  | «while» cond body =>
    rw [Stmt.names, List.forall_mem_append] at hnames
    rw [stmt]
    refine (leads_exprType cond hnames.1).bind fun t hcond => ?_
    refine (steady_condition _ _).leads_bind fun _ => ?_
    have hbody (l : Layer) : Leads L .loop (l :: ls) Γ (stmt body) (Γ.declareAll body.declared)
        fun _ => body.Linked L Γ .loop := leads_stmt body hnames.2 hgotos
    exact (leads_scope fun l _ => hbody l).imp fun _ h => ⟨hcond, h⟩
  | doWhile cond body =>
    rw [Stmt.names, List.forall_mem_append] at hnames
    rw [stmt]
    have hbody (l : Layer) : Leads L .loop (l :: ls) Γ (stmt body) (Γ.declareAll body.declared)
        fun _ => body.Linked L Γ .loop := leads_stmt body hnames.2 hgotos
    refine leads_scope_bind (fun l _ => hbody l) fun h => ?_
    refine (leads_exprType cond hnames.1).bind fun t hcond => ?_
    exact (steady_condition _ _).leads fun _ => ⟨hcond, h⟩
  | «for» init cond step body =>
    simp only [Stmt.names, List.flatMap_append, List.forall_mem_append] at hnames
    rw [Stmt.gotos, List.forall_mem_append] at hgotos
    obtain ⟨⟨⟨hinit, hcond⟩, hstep⟩, hbody⟩ := hnames
    -- The first part may be missing, and what it declares is in scope from then on, so the rest of
    -- the loop is followed for any start.
    have hparts (start : Check Unit) (l : Layer)
        (hstart : Leads L .loop (l :: ls) Γ start
          (Γ.declareAll (init.toList.flatMap Instr.declared))
          fun _ => ∀ i ∈ init, i.Linked L Γ .loop) : Leads L .loop (l :: ls) Γ (do
        start
        loopCondition cond
        loopStep step
        stmt body)
        ((Γ.declareAll (init.toList.flatMap Instr.declared)).declareAll body.declared)
        fun _ => (Stmt.for init cond step body).Linked L Γ (jumps (⟨kind, []⟩ :: ls)) := by
      refine hstart.bind fun _ h₁ => ?_
      refine (leads_loopCondition cond hcond).bind fun _ h₂ => ?_
      refine (leads_loopStep step hstep).bind fun _ h₃ => ?_
      exact (leads_stmt body hbody hgotos.2).imp fun _ h₄ => ⟨h₁, h₂, h₃, h₄⟩
    have hscope := leads_scope (f := none) fun l (_ : l.kind = kind) =>
      hparts _ l (leads_loopStart init hinit hgotos.1)
    rw [stmt, show (Stmt.for init cond step body).declared = [] from rfl, Meanings.declareAll_nil]
    cases init with
    | none => simpa only [LawfulMonad.bind_assoc, pure_bind] using hscope
    | some i => simpa only [LawfulMonad.bind_assoc] using hscope
  | switch selector parts =>
    rw [Stmt.names, List.forall_mem_append] at hnames
    rw [stmt]
    refine (leads_exprType selector hnames.1).bind fun t hselector => ?_
    refine leads_reject fun _ => leads_reject fun _ => ?_
    have hparts (l : Layer) (hl : l.kind = kind) : Leads L .switch (l :: ls) Γ (stmt.cases parts) Γ
        fun _ => Stmt.Linked.CasesLinked L Γ (jumps (⟨kind, []⟩ :: ls)).inSwitch parts := by
      -- A `switch` may be left by `break`, but `continue` belongs to what is around it.
      rw [← hl, ← jumps_switch l ls]
      exact leads_cases parts hnames.2 hgotos
    exact (leads_scope hparts).imp fun _ h => ⟨hselector, h⟩

theorem leads_stmts {kind : ScopeKind} {ls : List Layer} {Γ : Meanings} (body : List Stmt)
    (hnames : ∀ l ∈ Stmt.names.namesAll body, L.Knows l)
    (hgotos : ∀ l ∈ Stmt.gotos.gotosAll body, L.hasGotos) :
    Leads L kind ls Γ (stmt.stmts body) (Γ.declareAll (body.flatMap Stmt.declared)) fun _ =>
      Stmt.Linked.AllLinked L Γ (jumps (⟨kind, []⟩ :: ls)) body := by
  cases body with
  | nil =>
    rw [stmt.stmts]
    exact leads_pure trivial
  | cons s rest =>
    rw [Stmt.names.namesAll, List.forall_mem_append] at hnames
    rw [Stmt.gotos.gotosAll, List.forall_mem_append] at hgotos
    rw [stmt.stmts, List.flatMap_cons, Meanings.declareAll_append]
    refine (leads_stmt s hnames.1 hgotos.1).bind fun _ hs => ?_
    exact (leads_stmts rest hnames.2 hgotos.2).imp fun _ hrest => ⟨hs, hrest⟩

theorem leads_branches {kind : ScopeKind} {ls : List Layer} {Γ : Meanings}
    (conditional : List (Expr × Stmt))
    (hnames : ∀ l ∈ Stmt.names.namesBranches conditional, L.Knows l)
    (hgotos : ∀ l ∈ Stmt.gotos.gotosBranches conditional, L.hasGotos) :
    Leads L kind ls Γ (stmt.branches conditional) Γ fun _ =>
      Stmt.Linked.BranchesLinked L Γ (jumps (⟨kind, []⟩ :: ls)) conditional := by
  match conditional with
  | [] =>
    rw [stmt.branches]
    exact leads_pure trivial
  | (cond, body) :: rest =>
    rw [Stmt.names.namesBranches, List.forall_mem_append, List.forall_mem_append] at hnames
    rw [Stmt.gotos.gotosBranches, List.forall_mem_append] at hgotos
    rw [stmt.branches]
    refine (leads_exprType cond hnames.1.1).bind fun t hcond => ?_
    refine (steady_condition _ _).leads_bind fun _ => ?_
    have hbody (l : Layer) (hl : l.kind = kind) : Leads L .block (l :: ls) Γ (stmt body)
        (Γ.declareAll body.declared) fun _ => body.Linked L Γ (jumps (⟨kind, []⟩ :: ls)) := by
      rw [← hl, ← jumps_block l ls]
      exact leads_stmt body hnames.1.2 hgotos.1
    refine leads_scope_bind hbody fun h => ?_
    exact (leads_branches rest hnames.2 hgotos.2).imp fun _ hrest => ⟨hcond, h, hrest⟩

theorem leads_elseBranch {kind : ScopeKind} {ls : List Layer} {Γ : Meanings}
    (otherwise : Option Stmt)
    (hnames : ∀ l ∈ Stmt.names.namesElse otherwise, L.Knows l)
    (hgotos : ∀ l ∈ Stmt.gotos.gotosElse otherwise, L.hasGotos) :
    Leads L kind ls Γ (stmt.elseBranch otherwise) Γ fun _ =>
      Stmt.Linked.ElseLinked L Γ (jumps (⟨kind, []⟩ :: ls)) otherwise := by
  match otherwise with
  | none =>
    rw [stmt.elseBranch]
    exact leads_pure trivial
  | some body =>
    rw [stmt.elseBranch]
    have hbody (l : Layer) (hl : l.kind = kind) : Leads L .block (l :: ls) Γ (stmt body)
        (Γ.declareAll body.declared) fun _ => body.Linked L Γ (jumps (⟨kind, []⟩ :: ls)) := by
      rw [← hl, ← jumps_block l ls]
      exact leads_stmt body hnames hgotos
    exact leads_scope hbody

theorem leads_cases {kind : ScopeKind} {ls : List Layer} {Γ : Meanings}
    (parts : List (Option Expr × List Stmt))
    (hnames : ∀ l ∈ Stmt.names.namesCases parts, L.Knows l)
    (hgotos : ∀ l ∈ Stmt.gotos.gotosCases parts, L.hasGotos) :
    Leads L kind ls Γ (stmt.cases parts) Γ fun _ =>
      Stmt.Linked.CasesLinked L Γ (jumps (⟨kind, []⟩ :: ls)) parts := by
  match parts with
  | [] =>
    rw [stmt.cases]
    exact leads_pure trivial
  | (value, body) :: rest =>
    rw [Stmt.names.namesCases, List.forall_mem_append, List.forall_mem_append] at hnames
    rw [Stmt.gotos.gotosCases, List.forall_mem_append] at hgotos
    have hbody (l : Layer) (hl : l.kind = kind) : Leads L .block (l :: ls) Γ (stmt.stmts body)
        (Γ.declareAll (body.flatMap Stmt.declared))
        fun _ => Stmt.Linked.AllLinked L Γ (jumps (⟨kind, []⟩ :: ls)) body := by
      rw [← hl, ← jumps_block l ls]
      exact leads_stmts body hnames.1.2 hgotos.1
    rw [stmt.cases]
    refine (leads_caseLabel value hnames.1.1).bind fun _ hvalue => ?_
    refine leads_scope_bind hbody fun h => ?_
    exact (leads_cases rest hnames.2 hgotos.2).imp fun _ hrest => ⟨hvalue, h, hrest⟩

end

/-! ## Programs -/

theorem leads_structField (tag : String) (decl : Nat) (d : Declarator)
    (hnames : ∀ l ∈ d.sizeNames, L.Knows l) :
    Leads L kind ls Γ (structField tag decl d) Γ fun _ => d.SizesLinked L Γ := by
  refine (leads_declaredType d hnames).bind fun t hsizes => ?_
  refine leads_reject fun _ => leads_reject fun _ => ?_
  refine steady_get.leads_bind fun a => leads_reject fun _ => ?_
  exact Steady.leads (steady_modify fun _ => by exact ⟨rfl, rfl⟩) fun _ => hsizes

theorem leads_structDecl (name : Leaf) (fields : List Declarator)
    (hnames : ∀ l ∈ fields.flatMap Declarator.sizeNames, L.Knows l) :
    Leads L kind ls Γ (structDecl name fields) Γ fun _ => ∀ d ∈ fields, d.SizesLinked L Γ := by
  have hfields (tag : String) (decl : Nat) : Leads L kind ls Γ
      (fields.forM (structField tag decl)) Γ fun _ => ∀ d ∈ fields, d.SizesLinked L Γ := by
    induction fields with
    | nil => exact leads_pure fun _ h => by cases h
    | cons d rest ih =>
      rw [List.flatMap_cons, List.forall_mem_append] at hnames
      refine (leads_structField tag decl d hnames.1).bind fun _ hd => ?_
      refine (ih hnames.2).imp fun _ hrest => ?_
      exact List.forall_mem_cons.mpr ⟨hd, hrest⟩
  refine steady_get.leads_bind fun a => steady_get.leads_bind fun a' => leads_reject fun _ => ?_
  exact Steady.leads_bind (steady_modify fun _ => by exact ⟨rfl, rfl⟩) fun _ => hfields _ _

theorem leads_parameters (params : List Declarator)
    (hnames : ∀ l ∈ params.flatMap Declarator.sizeNames, L.Knows l) :
    Leads L kind ls Γ (params.mapM parameter) Γ fun vs =>
      vs.map (·.leaf) = params.map (·.name) := by
  induction params with
  | nil =>
    rw [List.mapM_nil]
    exact leads_pure rfl
  | cons d rest ih =>
    rw [List.flatMap_cons, List.forall_mem_append] at hnames
    have hparameter : Leads L kind ls Γ (parameter d) Γ fun v => v.leaf = d.name := by
      refine (leads_declaredType d hnames.1).bind fun t _ => ?_
      exact leads_reject fun _ => leads_pure rfl
    rw [List.mapM_cons]
    refine hparameter.bind fun v hv => (ih hnames.2).bind fun vs hvs => leads_pure ?_
    rw [List.map_cons, List.map_cons, hv, hvs]

theorem Stands.global {a : Analysis} (ha : a.Stands .global [] Γ) (id : Nat) :
    Γ id = (a.lookupHere id).map Entity.meaning := by
  obtain ⟨names, hat, rfl⟩ := ha
  rw [hat.lookupHere, meanings, List.findSome?_cons]
  cases names.lookup id <;> rfl

theorem length_of_hasTypes {f : Signature} {returnType : CType} {params : List Variable}
    (h : hasTypes f returnType params = true) : f.params.length = params.length := by
  simp only [hasTypes, Bool.and_eq_true, decide_eq_true_eq] at h
  exact h.1.2

/-- A name that is declared as that of a function meant nothing else before. -/
theorem leads_signature (name : Token) (returnType : CType) (params : List Variable)
    (hasBody : Bool) :
    Leads L .global [] Γ (signature name returnType params hasBody)
      (Γ.set name.id (.function params.length)) fun f =>
        Γ.Admits name.id params.length ∧ (hasBody = true → f.params = params) := by
  refine leads_get fun a ha => ?_
  have hmeaning := Stands.global ha name.id
  cases hhere : a.lookupHere name.id with
  | none =>
    rw [hhere] at hmeaning
    refine (leads_put name.id (.function ⟨name, returnType, params, hasBody⟩)).bind fun _ _ => ?_
    exact leads_pure ⟨.inl hmeaning, fun _ => rfl⟩
  | some e =>
    rw [hhere] at hmeaning
    rcases e with v | f
    · exact leads_failAt
    · refine leads_reject fun _ => leads_reject fun htypes => ?_
      have hlength : f.params.length = params.length := length_of_hasTypes (by simpa using htypes)
      have hadmits : Γ.Admits name.id params.length := .inr (by rw [hmeaning, ← hlength]; rfl)
      split
      · refine (leads_put name.id (.function { f with hasBody := true, params })).bind fun _ _ => ?_
        exact leads_pure ⟨hadmits, fun _ => rfl⟩
      · rename_i hbody
        have hsame : Γ.set name.id (.function params.length) = Γ := by
          funext n
          by_cases hn : n = name.id
          · rw [hn, Meanings.set_same, hmeaning, ← hlength]
            rfl
          · rw [Meanings.set_other _ _ hn]
        rw [hsame]
        exact leads_pure ⟨hadmits, fun h => absurd h hbody⟩

theorem leads_functionHead (returnType : TypeName) (name : Leaf) (params : List Declarator)
    (hasBody : Bool) (hnames : ∀ l ∈ params.flatMap Declarator.sizeNames, L.Knows l) :
    Leads L .global [] Γ (functionHead returnType name params hasBody)
      (Γ.set name.token.id (.function params.length)) fun f =>
        Γ.Admits name.token.id params.length ∧
          (hasBody = true → f.params.map (·.leaf) = params.map (·.name)) := by
  refine (steady_resolve returnType).leads_bind fun t => leads_reject fun _ => ?_
  refine (leads_parameters params hnames).bind fun vs hvs => ?_
  have hlength : vs.length = params.length := by
    rw [← List.length_map (f := Variable.leaf), hvs, List.length_map]
  rw [← hlength]
  refine (leads_signature name.token t vs hasBody).imp fun f hf => ⟨hf.1, fun h => ?_⟩
  rw [hf.2 h, hvs]

theorem leads_declares (vs : List Variable) :
    Leads L kind ls Γ (vs.forM declare) (Γ.declareAll (vs.map (·.leaf))) fun _ => True := by
  induction vs generalizing Γ with
  | nil => exact leads_pure trivial
  | cons v rest ih => exact (leads_declare v).bind fun _ _ => ih

theorem leads_functionBody (f : Signature) (body : List Stmt)
    (hnames : ∀ l ∈ Stmt.names.namesAll body, L.Knows l)
    (hgotos : ∀ l ∈ Stmt.gotos.gotosAll body, L.hasGotos) :
    Leads L kind ls Γ (functionBody f body) Γ fun _ =>
      Stmt.Linked.AllLinked L (Γ.declareAll (f.params.map (·.leaf))) .none body := by
  intro a ha
  refine (yields_enter ha .function (some f)).bind ?_
  rintro _ t ⟨l, rfl, rfl, ht⟩
  refine (leads_declares f.params t ht).bind fun _ u hu => ?_
  refine (leads_stmt (.block body) hnames hgotos u hu.1).bind fun _ v hv => ?_
  have hleave (w : Analysis) (hw : w.scopes = v.scopes ∧ w.current = v.current) :
      Yields L.Agrees leave w fun _ t => t.Stands l.kind ls (meanings (l :: ls)) ∧
        Stmt.Linked.AllLinked L ((meanings (l :: ls)).declareAll (f.params.map (·.leaf))) .none
          body :=
    (yields_leave (hv.1.congr hw)).imp fun _ _ h => ⟨h, hv.2⟩
  refine (steady_get.still _ v).bind fun w w' hw' => ?_
  split
  · exact hleave w' hw'
  · refine ((steady_resolveGotos _ _).still _ w').bind fun _ w'' hw'' => hleave w'' ?_
    exact ⟨hw''.1.trans hw'.1, hw''.2.trans hw'.2⟩

theorem leads_item (i : Item) (hnames : ∀ l ∈ i.names, L.Knows l)
    (hgotos : ∀ l ∈ i.gotos, L.hasGotos)
    (hprint : ∀ t name params body, i = .function t name params body →
      L.isPrint name.token.id → L.hasPrint) :
    Leads L .global [] Γ (item i) (i.after Γ) fun _ => i.Linked L Γ := by
  cases i with
  | directive token => exact leads_pure trivial
  | struct name fields => exact leads_structDecl name fields hnames
  | function returnType name params body =>
    rw [Item.names, List.cons_append, List.forall_mem_cons, List.forall_mem_append] at hnames
    refine (leads_functionHead returnType name params true hnames.2.1).bind fun f hf => ?_
    refine (leads_functionBody f body hnames.2.2 hgotos).imp fun _ hbody => ?_
    rw [hf.2 rfl] at hbody
    exact ⟨hf.1, hprint _ _ _ _ rfl, hbody⟩
  | prototype returnType name params =>
    rw [Item.names, List.forall_mem_cons] at hnames
    refine (leads_functionHead returnType name params false hnames.2).bind fun f hf => ?_
    exact leads_pure hf.1
  | declaration d => exact (leads_declarators d.all hnames).imp fun _ h => h.2 rfl

theorem leads_items (items : List Item) (hnames : ∀ l ∈ items.flatMap Item.names, L.Knows l)
    (hgotos : ∀ l ∈ items.flatMap Item.gotos, L.hasGotos)
    (hprint : ∀ t name params body, .function t name params body ∈ items →
      L.isPrint name.token.id → L.hasPrint) :
    Leads L .global [] Γ (items.forM item) (items.foldl Item.after Γ) fun _ =>
      Item.AllLinked L Γ items := by
  induction items generalizing Γ with
  | nil => exact leads_pure trivial
  | cons i rest ih =>
    rw [List.flatMap_cons, List.forall_mem_append] at hnames hgotos
    refine (leads_item i hnames.1 hgotos.1 ?_).bind fun _ hi => ?_
    · rintro t name params body rfl
      exact hprint t name params body List.mem_cons_self
    · refine (ih hnames.2 hgotos.2 ?_).imp fun _ hrest => ⟨hi, hrest⟩
      intro t name params body hmem
      exact hprint t name params body (List.mem_cons_of_mem i hmem)

/-- What the analysis of a whole program shows. -/
theorem yields_program (p : Program) (hnames : ∀ l ∈ p.items.flatMap Item.names, L.Knows l)
    (hgotos : ∀ l ∈ p.items.flatMap Item.gotos, L.hasGotos)
    (hprint : ∀ t name params body, .function t name params body ∈ p.items →
      L.isPrint name.token.id → L.hasPrint) :
    Yields L.Agrees (program p) .start fun _ _ => Item.AllLinked L .empty p.items := by
  have henter : Yields L.Agrees (enter .global none) .start fun _ t =>
      t.Stands .global [] .empty :=
    yields_modify ⟨[], Analysis.at_start.enter .global none, rfl⟩
  refine henter.bind fun _ t ht => (leads_items p.items hnames hgotos hprint t ht).bind ?_
  exact fun _ u hu => yields_modify hu.2

end

end Check

namespace Program

/-- Whether the analysis accepts a program. -/
def Accepted (p : Program) : Prop :=
  p.check.1 = .ok ()

/-- Whether the analysis of a program finds that an occurrence of a name has a meaning. -/
def Resolves (p : Program) (leaf : Leaf) (e : Entity) : Prop :=
  ∃ moment ∈ (Check.program p).trace .start, moment.deed = some (.meaning leaf e)

/-- An accepted program is linked. -/
theorem linked_of_accepted {p : Program} (haccepted : p.Accepted) {L : Linkage}
    (hresolves : ∀ leaf e, p.Resolves leaf e → L.resolves leaf e)
    (hnames : ∀ l ∈ p.items.flatMap Item.names, L.Knows l)
    (hgotos : ∀ l ∈ p.items.flatMap Item.gotos, L.hasGotos)
    (hprint : ∀ t name params body, .function t name params body ∈ p.items →
      L.isPrint name.token.id → L.hasPrint) :
    Item.AllLinked L .empty p.items := by
  have hyields := Check.yields_program p hnames hgotos hprint
  unfold Accepted check at haccepted
  cases hexec : (Check.program p).exec .start with
  | error e a =>
    rw [hexec] at haccepted
    cases haccepted
  | ok u a =>
    refine hyields u a hexec fun moment hmoment deed hdeed => ?_
    cases deed with
    | meaning leaf e => exact hresolves leaf e ⟨moment, hmoment, hdeed⟩

end Program

end MiniC
