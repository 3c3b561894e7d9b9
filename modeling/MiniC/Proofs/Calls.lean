import MiniC.Proofs.Calls.Signatures
import MiniC.Proofs.Ranges

set_option autoImplicit false

/-! # Calls run what they were checked against

The analysis checks a call against the function that the name means where the call stands, and a run
looks the name up among all functions that are registered by then. In an accepted program both come
to the same function, with as many parameters as there are arguments, to whose types those of the
arguments may be cast. The exception is the name of the function that is there without a
declaration, where a program declares a function of that name itself. -/

namespace MiniC

/-! ## What a call runs -/

/-- What a call runs: a function that was declared with a body, or the function that is there
without a declaration. -/
inductive Callee
  | function (f : FunctionDef)
  | print

/-- What a call of a name runs in a state, if it runs anything. -/
def Machine.callee? (m : Machine) (name : Token) : Option Callee :=
  match m.functions.lookup name.id with
  | some f => some (.function f)
  | none => if name.text = printName then some .print else none

namespace Run

variable {α β : Type}

/-- A call runs what its name stands for in the state in which it begins. -/
theorem exec_invoke (ctx : Context) (leaf : Leaf) (first : Option (Run Value))
    (args : Run (List Value)) (m : Machine) :
    (invoke ctx (.identifier leaf) first args).exec m =
      match m.callee? leaf.token with
      | some (.function f) => (do ctx.call f (← args) (some leaf.token.pos)).exec m
      | some .print => (do return some (← printFirst leaf.token.pos first)).exec m
      | none =>
        .error (.fault (if (m.prototypes.lookup leaf.token.id).isSome
          then .missingBody leaf.token.text
          else .undefinedFunction leaf.token.text) (some leaf.token.pos)) m := by
  rw [invoke, Traced.exec_bind_of_ok _ (Traced.exec_get m), Machine.callee?]
  cases m.functions.lookup leaf.token.id with
  | some f => rfl
  | none =>
    dsimp only
    split
    · rfl
    · rw [Traced.exec_bind_of_ok _ (Traced.exec_get m)]
      split <;> rfl

/-! ## Registered functions -/

/-- Whether all functions that are registered in a state are from `D`, under their numbers. -/
def KnowsOnly (D : Nat × FunctionDef → Prop) (m : Machine) : Prop :=
  ∀ entry ∈ m.functions, D entry

variable {D : Nat × FunctionDef → Prop}

theorem preserves_modifyGet {f : Machine → α × Machine}
    (hf : ∀ m, (f m).2.functions = m.functions) :
    Traced.Preserves (KnowsOnly D) (modifyGet f : Run α) := by
  refine Traced.preserves_of_change (g := fun m => (f m).2) (fun _ => ⟨rfl, rfl⟩) fun m hm => ?_
  rw [KnowsOnly, hf]
  exact hm

theorem preserves_get {f : Machine → Run α} (hf : ∀ m, Traced.Preserves (KnowsOnly D) (f m)) :
    Traced.Preserves (KnowsOnly D) (get >>= f) :=
  Traced.Preserves.bind (Traced.preserves_of_still fun _ => ⟨rfl, rfl⟩) hf

theorem preserves_throw (stop : Stop) : Traced.Preserves (KnowsOnly D) (throw stop : Run α) :=
  Traced.preserves_of_still fun _ => ⟨rfl, rfl⟩

/-- Nothing but the pieces of a program registers functions. -/
theorem stepping_knowsOnly : Stepping fun x => Traced.Preserves (KnowsOnly D) x where
  pure _ := Traced.preserves_of_still fun _ => ⟨rfl, rfl⟩
  bind := Traced.Preserves.bind
  stop _ _ := preserves_throw _
  anyStop stop _ _ := preserves_throw stop
  observe _ hf := preserves_get fun m => hf m fun _ => preserves_throw _
  observeName _ _ _ hf := preserves_get hf
  alloc _ := preserves_modifyGet fun _ => rfl
  put _ _ := preserves_modifyGet fun _ => rfl
  beside f hf _ := preserves_modifyGet fun m => by
    obtain ⟨records, output, events, -, h⟩ := hf m
    rw [h]
  own _ := preserves_modifyGet fun _ => rfl
  keepString _ _ := preserves_modifyGet fun _ => rfl
  use _ := Traced.preserves_of_change (g := id) (fun _ => ⟨rfl, rfl⟩) fun _ => id
  bindName _ _ _ := preserves_modifyGet fun _ => rfl
  introduce _ _ _ := Traced.Preserves.bind (preserves_modifyGet fun _ => rfl) fun _ =>
    Traced.preserves_of_change (g := id) (fun _ => ⟨rfl, rfl⟩) fun _ => id
  located pos hx := hx.mapError _
  inScope hx := hx.between (fun _ hm => hm) fun m hm => by
    rw [KnowsOnly, functions_pop]
    exact hm
  inCall name hx := preserves_get fun m => hx.between (fun _ hm => hm) fun t ht => by
    have hpop : (t.leaveCall m.current).functions = t.functions := functions_pop t
    rw [KnowsOnly, hpop]
    exact ht

/-- By induction on the steps that are left for nested calls. -/
theorem knowsOnly_call (known : Nat → Option CType) (fuel : Nat) :
    ComposedIn (fun x => Traced.Preserves (KnowsOnly D) x) ⟨known, call known fuel⟩ := by
  have hP := stepping_knowsOnly (D := D)
  have hcontext (ctx : Context)
      (hcalls : ∀ f args pos, Traced.Preserves (KnowsOnly D) (ctx.call f args pos)) :
      ComposedIn (fun x => Traced.Preserves (KnowsOnly D) x) ctx :=
    ⟨hP, fun _ hf => preserves_get fun m => hf m (fun _ _ => trivial) fun _ => preserves_throw _,
      fun f _ => hcalls f⟩
  induction fuel with
  | zero => exact hcontext _ fun _ _ _ => preserves_throw _
  | succ fuel ih =>
    refine hcontext _ fun f args pos => hP.call_of_inside ?_
    refine hP.bind (hP.inCall f.name ?_) fun signal => ?_
    · exact hP.bind (hP.bindParams known f.params args) fun _ => ih.stmt fuel _
    · exact hP.callResult f pos fun _ _ => preserves_throw _

end Run

namespace Program

variable {p : Program}

/-- Whether a piece of a program defines a function under a number. -/
def Defines (p : Program) (id : Nat) (f : FunctionDef) : Prop :=
  ∃ returnType name, .function returnType name f.params f.body ∈ p.items ∧
    name.token.id = id ∧ f.name = name.token.text

/-- All functions that are registered at any time of a run are defined by the program. -/
theorem defines_of_visits {known : Nat → Option CType} {m : Machine} (hm : p.Visits known m)
    {id : Nat} {f : FunctionDef} (hf : m.functions.lookup id = some f) : p.Defines id f := by
  obtain ⟨fuel, hm⟩ := hm
  have hdefines : Run.Defines (fun x => Traced.Preserves (Run.KnowsOnly fun entry =>
      p.Defines entry.1 entry.2) x) fun entry => p.Defines entry.1 entry.2 := by
    intro g hg _
    refine Traced.preserves_of_change (g := g) (fun _ => ⟨rfl, rfl⟩) fun t ht => ?_
    obtain ⟨functions, prototypes, h, hfunctions⟩ := hg t
    rw [Run.KnowsOnly, h]
    exact fun entry hentry => (hfunctions entry hentry).elim (ht entry) fun hentry => hentry
  have hrun := (Run.knowsOnly_call known fuel).program
    (fun f => Run.preserves_modifyGet fun _ => rfl) hdefines p fun returnType name params body t hmem =>
      ⟨returnType, name, hmem, rfl, rfl⟩
  exact hrun .start (List.forall_mem_nil _) m hm (id, f) (mem_of_lookup hf)

/-! ## What the analysis found for a call -/

/-- Whether the analysis found that a call of the name `leaf` calls the function `f`, and from there
on found the types `ts` of the arguments. -/
def Finds (p : Program) (leaf : Leaf) (args : List Expr) (f : Signature) (ts : List CType) : Prop :=
  ∃ a a', ⟨some (.meaning leaf (.function f)), a⟩ ∈ (Check.program p).trace .start ∧
    (args.mapM Check.exprType).exec a = .ok ts a'

/-- Whether the analysis accepted a call of the name `leaf` where this name means nothing. -/
def FindsNone (p : Program) (leaf : Leaf) (args : List Expr) : Prop :=
  ∃ a ∈ (Check.program p).states .start, a.lookup leaf.token.id = none ∧
    ∃ t a', (Check.exprType (.call (.identifier leaf) args)).exec a = .ok t a'

end Program

/-- Whether a parameter takes values of a type: it may be cast to every type that the words of the
parameter stand for. -/
def Declarator.Takes (d : Declarator) (t : CType) : Prop :=
  ∀ find? base, CType.ofWords find? d.type.words = .ok base →
    t.castError? (base.pointers d.dims.length) = none

/-- Parameters of the same types take the same values. -/
theorem Declarator.takes_of_hasType {params : List Declarator} {vs : List Variable}
    {ts : List CType}
    (hparams : List.Forall₂ (fun d (v : Variable) => d.HasType v.type.undeclared) params vs)
    (hcasts : List.Forall₂ (fun t (v : Variable) => t.castError? v.type = none) ts vs) :
    List.Forall₂ Declarator.Takes params ts := by
  induction hparams generalizing ts with
  | nil =>
    cases hcasts
    exact .nil
  | cons hd _ ih =>
    cases hcasts with
    | cons ht hrest =>
      refine .cons (fun find? base hbase => ?_) (ih hrest)
      rw [CType.castError?_congr _ (Declarator.hasType_unique ⟨find?, base, hbase, rfl⟩ hd), ht]

namespace Check

open Traced

/-- Arguments are accepted for parameters to whose types their own may be cast. -/
theorem types_of_argsFor {params : List Variable} {args : List Expr} {a a' : Analysis}
    (hlength : params.length = args.length)
    (h : (exprType.argsFor params args).exec a = .ok () a') :
    ∃ ts, (args.mapM exprType).exec a = .ok ts a' ∧
      List.Forall₂ (fun t (v : Variable) => t.castError? v.type = none) ts params := by
  induction args generalizing params a with
  | nil =>
    obtain rfl := List.length_eq_zero_iff.mp hlength
    rw [exprType.argsFor] at h
    · cases h
      exact ⟨[], by rw [List.mapM_nil]; rfl, .nil⟩
    · exact fun _ _ _ _ _ h => by cases h
  | cons e rest ih =>
    cases params with
    | nil => cases hlength
    | cons param params =>
      rw [exprType.argsFor] at h
      obtain ⟨t, b, ht, h, -⟩ := exec_bind_eq_ok h
      obtain ⟨_, c, hcast, hrest, -⟩ := exec_bind_eq_ok h
      unfold implicitCast at hcast
      split at hcast
      · cases hcast
      · rename_i hnone
        cases hcast
        obtain ⟨ts, hts, hcasts⟩ := ih (Nat.succ.inj hlength) hrest
        refine ⟨t :: ts, ?_, .cons hnone hcasts⟩
        rw [List.mapM_cons, exec_bind_of_ok _ ht, exec_bind_of_ok _ hts]
        rfl

/-- A call that is accepted is one of a declared function, whose parameters take the arguments, or
one of the function that is there without a declaration. -/
theorem call_eq_ok {callee : Expr} {args : List Expr} {t : CType} {a a' : Analysis}
    (h : (exprType (.call callee args)).exec a = .ok t a') :
    ∃ leaf, callee = .identifier leaf ∧
      ((a.lookup leaf.token.id = none ∧ leaf.token.text = printName) ∨
        ∃ f ts b, a.lookup leaf.token.id = some (.function f) ∧
          f.params.length = args.length ∧
          ⟨some (.meaning leaf (.function f)), a⟩ ∈ (exprType (.call callee args)).trace a ∧
          (args.mapM exprType).exec a = .ok ts b ∧
          List.Forall₂ (fun t (v : Variable) => t.castError? v.type = none) ts f.params) := by
  rw [exprType] at h ⊢
  obtain ⟨f?, b, hcallee, hrest, htrace⟩ := exec_bind_eq_ok h
  obtain ⟨leaf, rfl, rfl, hfound⟩ := calledFunction_eq_ok hcallee
  refine ⟨leaf, rfl, ?_⟩
  rcases hfound with ⟨rfl, hnone, htext, -⟩ | ⟨f, rfl, hlookup, hlength, hnote⟩
  · exact .inl ⟨hnone, htext⟩
  · obtain ⟨_, c, hargs, -⟩ := exec_bind_eq_ok hrest
    obtain ⟨ts, hts, hcasts⟩ := types_of_argsFor hlength hargs
    refine .inr ⟨f, ts, c, hlookup, hlength, ?_, hts, hcasts⟩
    rw [htrace, hnote]
    exact List.mem_append_left _ List.mem_cons_self

end Check

namespace Program

variable {p : Program}

/-- An accepted program was looked at everywhere where a run may come to. -/
theorem looks_of_accepted (haccepted : p.Accepted) {e : Expr} (he : e.isComposite)
    (hmem : .expr e ∈ p.code) : Check.Looks (Check.program p) .start e := by
  unfold Accepted check at haccepted
  cases hexec : (Check.program p).exec .start with
  | error e a =>
    rw [hexec] at haccepted
    cases haccepted
  | ok u a => exact (Check.covers_program p).looks _ u a hexec e he hmem

/-! ## What a call runs and what it was checked against -/

/-- Whether a call of a name in a state of a run runs what it was checked against: a function of the
program that has as many parameters as there are arguments, of types to which those of the arguments
may be cast; or the function that is there without a declaration, if the analysis found no other. -/
inductive CalledAsChecked (p : Program) (m : Machine) (leaf : Leaf) (args : List Expr) : Prop
  | declared {f : Signature} {ts : List CType} (finds : p.Finds leaf args f ts)
      (calls : ∀ callee, m.callee? leaf.token = some callee → ∃ g, callee = .function g ∧
        p.Defines leaf.token.id g ∧ List.Forall₂ Declarator.HasType g.params f.types ∧
        g.params.length = args.length ∧ List.Forall₂ Declarator.Takes g.params ts)
  | undeclared (finds : p.FindsNone leaf args) (calls : m.callee? leaf.token = some .print)

/-- Every call in an accepted program runs what it was checked against, in every state of every run.
A call of the function that is there without a declaration does so unless the program declares a
function of that name. -/
theorem called_as_checked (haccepted : p.Accepted) {known : Nat → Option CType} {m : Machine}
    (hm : p.Visits known m) {callee : Expr} {args : List Expr}
    (hcall : .expr (.call callee args) ∈ p.code)
    (hprint : ∀ leaf, callee = .identifier leaf → leaf.token.text = printName →
      ∀ i ∈ p.items, ∀ head, i.head? = some head → head.name.token.id ≠ leaf.token.id) :
    ∃ leaf, callee = .identifier leaf ∧ p.CalledAsChecked m leaf args := by
  obtain ⟨a, ha, t, a', hexec, hinfix⟩ := looks_of_accepted haccepted rfl hcall
  obtain ⟨leaf, rfl, hfound⟩ := Check.call_eq_ok hexec
  refine ⟨leaf, rfl, ?_⟩
  rcases hfound with ⟨hnone, htext⟩ | ⟨f, ts, b, hlookup, hlength, hnote, hts, hcasts⟩
  · refine .undeclared ⟨a, ha, hnone, t, a', hexec⟩ ?_
    cases hlookup : m.functions.lookup leaf.token.id with
    | none => rw [Machine.callee?, hlookup, if_pos htext]
    | some g =>
      obtain ⟨returnType, name, hmem, hid, -⟩ := defines_of_visits hm hlookup
      exact absurd hid (hprint leaf rfl htext _ hmem _ rfl)
  · refine .declared ⟨a, b, hinfix.subset hnote, hts⟩ fun callee hcallee => ?_
    obtain ⟨i, s, hs, hf⟩ := Analysis.exists_of_lookup hlookup
    have hdeclares := Check.declared_of_mem_states ha i s _ f hs hf
    rw [Machine.callee?] at hcallee
    split at hcallee
    · rename_i g hg
      cases hcallee
      obtain ⟨returnType, name, hmem, hid, hname⟩ := defines_of_visits hm hg
      -- the function that is run has the types of the one that was found
      have hfits : List.Forall₂ Declarator.HasType g.params f.types :=
        fits_of_declares haccepted hmem rfl (hid ▸ hdeclares)
      have htakes := Declarator.takes_of_hasType (List.forall₂_map_right_iff.mp hfits) hcasts
      refine ⟨g, rfl, ⟨returnType, name, hmem, hid, hname⟩, hfits, ?_, htakes⟩
      rw [hfits.length_eq, Signature.types, List.length_map, hlength]
    · split at hcallee
      · -- the function that is there without a declaration is declared by the program
        rename_i htext
        obtain ⟨i, hi, head, hhead, hid, -⟩ := hdeclares
        exact absurd hid (hprint leaf rfl htext i hi head hhead)
      · cases hcallee

/-! ## A program with two calls -/

/-- The program `int f(int x){return x;} int main(){printf(f(1)); return 0;}`. -/
def calling : Program where
  items := [
    .function (sampleInt 1 0) (sampleName "f" 2 5 1)
      [⟨sampleInt 7 2, sampleName "x" 4 11 3, [], none⟩]
      [.line [.return (some (.identifier (sampleName "x" 4 21 4)))]],
    .function (sampleInt 25 5) (sampleName "main" 10 29 6) [] [
      .line [.expr (.call (.identifier (sampleName "printf" 11 36 7))
        [.call (.identifier (sampleName "f" 2 43 8)) [sampleNumber "1" 12 45 9]])],
      .line [.return (some (sampleNumber "0" 13 57 10))]]]

/-- The call of `f` runs this function of the program, as it was checked. -/
theorem called_as_checked_calling :
    let callee := Expr.identifier (sampleName "f" 2 43 8)
    let args := [sampleNumber "1" 12 45 9]
    calling.Accepted ∧ .expr (.call callee args) ∈ calling.code ∧
      ∃ m, calling.Visits (fun _ => none) m ∧ (m.callee? (sampleName "f" 2 43 8).token).isSome ∧
        ∃ leaf, callee = .identifier leaf ∧ calling.CalledAsChecked m leaf args := by
  intro callee args
  have haccepted : calling.Accepted := by
    unfold Accepted
    cbv
  have hcall : .expr (.call callee args) ∈ calling.code := by
    simp [callee, args, calling, code, Item.code, Stmt.occurrences.occurrencesAll,
      Stmt.occurrences, Instr.occurrences, Expr.occurrences, Expr.occurrences.occurrencesAll,
      Declarator.outline]
  let m := (Run.program (fun _ => none) 100 calling).after .start
  have hm : calling.Visits (fun _ => none) m := ⟨100, Traced.mem_states_after _ _⟩
  have hsome : (m.callee? (sampleName "f" 2 43 8).token).isSome := by decide +kernel
  refine ⟨haccepted, hcall, m, hm, hsome, called_as_checked haccepted hm hcall ?_⟩
  intro leaf hleaf htext
  cases Expr.identifier.inj hleaf
  exact absurd htext (by decide)

/-! ## A function with the name of the one that is there without a declaration -/

/-- The program `int main(){printf(1); return 0;} int printf(int x){return 0;}`. -/
def overriding : Program where
  items := [
    .function (sampleInt 1 0) (sampleName "main" 2 5 1) [] [
      .line [.expr (.call (.identifier (sampleName "printf" 6 12 2)) [sampleNumber "1" 7 19 3])],
      .line [.return (some (sampleNumber "0" 10 30 4))]],
    .function (sampleInt 34 5) (sampleName "printf" 6 38 6)
      [⟨sampleInt 45 7, sampleName "x" 12 49 8, [], none⟩]
      [.line [.return (some (sampleNumber "0" 10 59 9))]]]

/-- Calls do not always run what they were checked against: where the call is checked, its name
means nothing in the program, and the run calls the function that comes after it and prints
nothing. -/
theorem not_called_as_checked :
    overriding.Accepted ∧ (overriding.run (fun _ => none) 100).2.output = "" ∧
    ¬∀ p : Program, p.Accepted → ∀ known m, p.Visits known m → ∀ callee args,
      .expr (.call callee args) ∈ p.code →
      ∃ leaf, callee = .identifier leaf ∧ p.CalledAsChecked m leaf args := by
  have haccepted : overriding.Accepted := by
    unfold Accepted
    cbv
  refine ⟨haccepted, by decide +kernel, fun hall => ?_⟩
  let m := (Run.program (fun _ => none) 100 overriding).after .start
  have hm : overriding.Visits (fun _ => none) m := ⟨100, Traced.mem_states_after _ _⟩
  have hcall : .expr (.call (.identifier (sampleName "printf" 6 12 2)) [sampleNumber "1" 7 19 3]) ∈
      overriding.code := by
    simp [overriding, code, Item.code, Stmt.occurrences.occurrencesAll, Stmt.occurrences,
      Instr.occurrences, Expr.occurrences, Expr.occurrences.occurrencesAll, Declarator.outline]
  obtain ⟨leaf, heq, hchecked⟩ := hall overriding haccepted _ m hm _ _ hcall
  cases heq
  cases hchecked with
  | declared finds _ =>
    obtain ⟨a, a', hmem, -⟩ := finds
    have hfindings : ((Check.program overriding).trace .start).filterMap (·.deed) = [] := by
      cbv
    have hdeed := List.filterMap_eq_nil_iff.mp hfindings _ hmem
    cases hdeed
  | undeclared _ calls =>
    have hsome : (m.functions.lookup 6).isSome := by decide +kernel
    obtain ⟨f, hf⟩ := Option.isSome_iff_exists.mp hsome
    rw [Machine.callee?, sampleName, sampleToken, hf] at calls
    cases calls

end Program

end MiniC
