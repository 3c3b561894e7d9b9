import MiniC.Proofs.Kinds.Values

set_option autoImplicit false

/-! # Arithmetic expressions have values of their types

The analysis computes the type of an arithmetic expression from the types of its operands, and a run
computes its value from the kinds of the values of its operands. Both follow the usual arithmetic
conversions, and so they agree, as long as both branches of every conditional expression are of the
same kind. -/

namespace MiniC

/-! ## The kind of a value and of its type -/

/-- Whether a value is of the kind that a type of numbers has: an integer, or a floating number of
single or of double precision. -/
def Value.Suits (v : Value) (t : CType) : Prop :=
  (t.isInteger ∧ ∃ n, v = .int n) ∨ (t.isFloating ∧ ¬t.isDouble ∧ ∃ x, v = .float x) ∨
    (t.isFloating ∧ t.isDouble ∧ ∃ x, v = .double x)

theorem Value.suits_of_numberKind? {v : Value} {t : CType} {k : NumberKind}
    (hv : v.numberKind? = some k) (ht : t.numberKind? = some k) : v.Suits t := by
  cases v with
  | int n =>
    cases hv
    exact .inl ⟨(CType.isInteger_iff ht).mpr rfl, n, rfl⟩
  | float x =>
    cases hv
    refine .inr (.inl ⟨(CType.isFloating_iff ht).mpr (by decide), fun h => ?_, x, rfl⟩)
    cases (CType.isDouble_iff ht).mp h
  | double x =>
    cases hv
    exact .inr (.inr ⟨(CType.isFloating_iff ht).mpr (by decide), (CType.isDouble_iff ht).mpr rfl,
      x, rfl⟩)
  | _ => cases hv

/-- An arithmetic expression whose variables hold values of their types has a value of its type, if
both branches of every conditional expression in it are of the same kind. -/
theorem Expr.value_suits {e : Expr} {a a' : Analysis} {t : CType} {ctx : Context}
    {m m' : Machine} {v : Value} (harithmetic : (e.numberKind? a.kindOf).isSome)
    (hbranches : e.BranchesAgree a.kindOf) (hslots : (slotsOf e.occurrences).Nodup)
    (hfaithful : a.Faithful e.occurrences) (hkeeps : m.Keeps a.kindOf e.occurrences)
    (hfounded : ctx.Founded e.occurrences) (htype : (Check.exprType e).exec a = .ok t a')
    (hvalue : (Run.eval ctx e).exec m = .ok v m') : v.Suits t := by
  obtain ⟨k, hk⟩ := Option.isSome_iff_exists.mp harithmetic
  have ht := Check.yields_exprType (D := fun _ => True) e a hk hslots hfaithful t a' htype
    fun _ _ _ _ => trivial
  have hv := Run.yields_eval (D := fun _ => True) e hk hbranches hkeeps hfounded v m' hvalue
    fun _ _ _ _ => trivial
  exact Value.suits_of_numberKind? hv.1 ht.1

/-! ## Branches of the same kind -/

namespace Program

/-- A decimal number with a fraction in the first line of a text. -/
def sampleDouble (text : String) (id column slot : Nat) : Expr :=
  .literal ⟨sampleToken (.literal .double) text id column, slot⟩ .double

/-- The expression `(1 ? n : 2) * 2.5`. -/
def scaling : Expr :=
  .binary (.arith .mul)
    (.parens (.conditional (sampleNumber "1" 3 2 0) (.identifier (sampleName "n" 2 6 1))
      (sampleNumber "2" 4 10 2)))
    (sampleDouble "2.5" 5 15 3)

/-- Where `n` is a variable of the type `int`. -/
def scalingAnalysis : Analysis where
  scopes := #[{ StaticScope.opened none .global none with
    names := [(2, .variable ⟨sampleName "n" 2 1 9, .int⟩)] }]
  current := some 0
  structs := .empty
  annotations := ∅

/-- Where `n` has the value 3. -/
def scalingMachine : Machine :=
  Machine.start.bind 2 .int (.int (.plain 3))

theorem occurrences_scaling : scaling.occurrences =
    let choice : Expr := .conditional (sampleNumber "1" 3 2 0) (.identifier (sampleName "n" 2 6 1))
      (sampleNumber "2" 4 10 2)
    [.expr scaling, .expr (.parens choice), .expr choice, .expr (sampleNumber "1" 3 2 0),
      .expr (.identifier (sampleName "n" 2 6 1)), .expr (sampleNumber "2" 4 10 2),
      .expr (sampleDouble "2.5" 5 15 3)] := rfl

theorem branchesAgree_scaling : scaling.BranchesAgree scalingAnalysis.kindOf := by
  intro cond first second hmem
  rw [occurrences_scaling] at hmem
  simp only [scaling, sampleNumber, sampleDouble, List.mem_cons, Occurrence.expr.injEq,
    reduceCtorEq, Expr.conditional.injEq, List.not_mem_nil, or_false, false_or] at hmem
  obtain ⟨rfl, rfl, rfl⟩ := hmem
  cbv

theorem keeps_scaling : scalingMachine.Keeps scalingAnalysis.kindOf scaling.occurrences := by
  intro leaf k hleaf hk b v hb hv
  rw [occurrences_scaling] at hleaf
  simp only [scaling, sampleNumber, sampleDouble, List.mem_cons, Occurrence.expr.injEq,
    reduceCtorEq, Expr.identifier.injEq, List.not_mem_nil, or_false, false_or] at hleaf
  subst hleaf
  have hkind : scalingAnalysis.kindOf (sampleName "n" 2 6 1) = some .integer := by cbv
  rw [hkind] at hk
  cases hk
  cases hb
  cases hv
  rfl

/-- Both branches are integers, and the product has double precision, as its type says. -/
theorem value_suits_scaling :
    ∃ a' v m', (Check.exprType scaling).exec scalingAnalysis = .ok (.ofBase .double) a' ∧
      (Run.eval ⟨fun _ => none, Run.call (fun _ => none) 0⟩ scaling).exec scalingMachine =
        .ok v m' ∧ v.Suits (.ofBase .double) := by
  have htype : EStateM.run' (Check.exprType scaling).exec scalingAnalysis =
      some (.ofBase .double) := by cbv
  unfold EStateM.run' EStateM.run at htype
  split at htype
  · rename_i t a' hexec
    cases htype
    have harithmetic : (scaling.numberKind? scalingAnalysis.kindOf).isSome := by cbv
    have hslots : (slotsOf scaling.occurrences).Nodup := by decide
    have hfaithful : scalingAnalysis.Faithful scaling.occurrences := by
      intro e slot t he hslot ht
      rw [scalingAnalysis, Std.HashMap.getElem?_empty] at ht
      cases ht
    have hfounded : Context.Founded ⟨fun _ => none, Run.call (fun _ => none) 0⟩
        scaling.occurrences := by
      rintro name t _ ⟨⟩
    obtain ⟨v, m', hvalue⟩ : ∃ v m', (Run.eval ⟨fun _ => none, Run.call (fun _ => none) 0⟩
        scaling).exec scalingMachine = .ok v m' := ⟨_, _, rfl⟩
    exact ⟨a', v, m', hexec, hvalue, Expr.value_suits harithmetic branchesAgree_scaling hslots
      hfaithful keeps_scaling hfounded hexec hvalue⟩
  · cases htype

/-! ## Branches of different kinds -/

/-- The expression `1 ? 1 : 2.0`. -/
def mixed : Expr :=
  .conditional (sampleNumber "1" 7 20 3) (sampleNumber "1" 7 24 4) (sampleDouble "2.0" 10 28 5)

/-- The program `int main(){printf((1 ? 1 : 2.0) / 2); return 0;}`. -/
def halving : Program where
  items := [
    .function (sampleInt 1 0) (sampleName "main" 2 5 1) [] [
      .line [.expr (.call (.identifier (sampleName "printf" 6 12 2))
        [.binary (.arith .div) (.parens mixed) (sampleNumber "2" 12 35 6)])],
      .line [.return (some (sampleNumber "0" 15 46 7))]]]

/-- Arithmetic expressions do not always have values of their types: the type of `1 ? 1 : 2.0` has
double precision, and its value is an integer, so that the accepted program prints 0. -/
theorem not_value_suits :
    halving.Accepted ∧ (halving.run (fun _ => none) 100).2.output = "0\n" ∧
    ¬∀ (e : Expr) (a a' : Analysis) (t : CType) (ctx : Context) (m m' : Machine) (v : Value),
      (e.numberKind? a.kindOf).isSome → (slotsOf e.occurrences).Nodup →
      a.Faithful e.occurrences → m.Keeps a.kindOf e.occurrences → ctx.Founded e.occurrences →
      (Check.exprType e).exec a = .ok t a' → (Run.eval ctx e).exec m = .ok v m' → v.Suits t := by
  have haccepted : halving.Accepted := by
    unfold Accepted
    cbv
  refine ⟨haccepted, by decide +kernel, fun hall => ?_⟩
  have htype : EStateM.run' (Check.exprType mixed).exec .start = some (.ofBase .double) := by cbv
  unfold EStateM.run' EStateM.run at htype
  split at htype
  · rename_i t a' hexec
    cases htype
    have harithmetic : (mixed.numberKind? Analysis.start.kindOf).isSome := by cbv
    have hslots : (slotsOf mixed.occurrences).Nodup := by decide
    have hfaithful : Analysis.start.Faithful mixed.occurrences := by
      intro e slot t he hslot ht
      rw [Analysis.start, Std.HashMap.getElem?_empty] at ht
      cases ht
    have hkeeps : Machine.start.Keeps Analysis.start.kindOf mixed.occurrences := by
      rintro leaf k - - b v ⟨⟩
    have hfounded : Context.Founded ⟨fun _ => none, Run.call (fun _ => none) 0⟩
        mixed.occurrences := by
      rintro name t _ ⟨⟩
    obtain ⟨n, m', hvalue⟩ : ∃ n m', (Run.eval ⟨fun _ => none, Run.call (fun _ => none) 0⟩
        mixed).exec .start = .ok (.int n) m' := ⟨_, _, rfl⟩
    have hsuits := hall mixed .start a' _ _ _ _ _ harithmetic hslots hfaithful hkeeps hfounded
      hexec hvalue
    rcases hsuits with ⟨h, -⟩ | ⟨-, h, -⟩ | ⟨-, -, x, h⟩
    · cases h
    · exact h rfl
    · cases h
  · cases htype

end Program

end MiniC
