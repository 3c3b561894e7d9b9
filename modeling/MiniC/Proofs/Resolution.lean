import MiniC.Proofs.Linkage

set_option autoImplicit false

/-! # What names mean in runs of accepted programs

Where a run looks up a name as a variable, it finds the variable that the declaration has made last
to which the analysis resolved that occurrence, or one that a declaration without a block around it
has made. The analysis gives the branches of a condition and the body of a loop a scope of their
own, whereas a run gives them one only if they are blocks. -/

namespace MiniC

namespace Program

variable {p : Program}

/-- The variable that a name is found to mean is the one that the declaration has made last which
the analysis means, unless another declaration has made it that has no block around it. -/
theorem use_resolved (hnumbered : p.Numbered) (haccepted : p.Accepted) (hgotos : p.gotos = [])
    (known : Nat → Option CType) (fuel : Nat) {before after : List (Moment Deed Machine)}
    {moment : Moment Deed Machine} {leaf : Leaf}
    (htrace : (Run.program known fuel p).trace .start = before ++ moment :: after)
    (huse : moment.deed = some (.use leaf)) :
    ∃ v b o, (∀ e, p.Resolves leaf e ↔ e = .variable v) ∧
      moment.state.lookup leaf.token.id = some b ∧ o.token.id = leaf.token.id ∧
      (History.start.after before).latest o = some b ∧ (o = v.leaf ∨ o ∈ p.bare) ∧
      ((History.start.after before).latest v.leaf = some b ↔ ¬(o ∈ p.bare ∧ o ≠ v.leaf)) := by
  have huses := (ensures_run hnumbered haccepted known fuel).uses
  rw [htrace] at huses
  obtain ⟨v, b, o, hresolves, hlookup, hid, hlatest, hunique, ho⟩ :=
    huses.at_moment huse fun h => h hgotos
  refine ⟨v, b, o, fun e => ⟨fun he => resolves_unique hnumbered he hresolves, ?_⟩, hlookup, hid,
    hlatest, ho, fun hv h => h.2 (hunique v.leaf hv).symm, fun h => ?_⟩
  · rintro rfl
    exact hresolves
  · rcases ho with rfl | hbare
    · exact hlatest
    · have heq : o = v.leaf := not_ne_iff.mp fun hne => h ⟨hbare, hne⟩
      rw [← heq]
      exact hlatest

/-! ## A branch that is a declaration -/

/-- The program `int main(){int x = 1; if (1) int x = 2; printf(x); return 0;}`. -/
def shadowing : Program where
  items := [
    .function (sampleInt 1 0) (sampleName "main" 2 5 1) [] [
      .line [.declare
        ⟨⟨sampleInt 12 2, sampleName "x" 6 16 3, [], some (sampleNumber "1" 8 20 4)⟩, []⟩],
      .branches [(sampleNumber "1" 8 27 5, .line [.declare
        ⟨⟨sampleInt 30 6, sampleName "x" 6 34 7, [], some (sampleNumber "2" 11 38 8)⟩, []⟩])] none,
      .line [.expr (.call (.identifier (sampleName "printf" 12 41 9))
        [.identifier (sampleName "x" 6 48 10)])],
      .line [.return (some (sampleNumber "0" 13 58 11))]]]

example : shadowing.bare = [sampleName "x" 6 34 7] := by decide +kernel

theorem shadowing_numbered : shadowing.Numbered := by decide +kernel

theorem shadowing_accepted : shadowing.Accepted := by
  unfold Accepted
  cbv

/-- The analysis means the first declaration by the last occurrence of `x`. -/
theorem shadowing_resolves {e : Entity} (he : shadowing.Resolves (sampleName "x" 6 48 10) e) :
    e = .variable ⟨sampleName "x" 6 16 3, .int⟩ := by
  have hfindings : ((Check.program shadowing).trace .start).filterMap (·.deed) =
      [.meaning (sampleName "x" 6 48 10) (.variable ⟨sampleName "x" 6 16 3, .int⟩)] := by
    cbv
  obtain ⟨moment, hmem, hdeed⟩ := he
  have hfinding := List.mem_filterMap.mpr ⟨moment, hmem, hdeed⟩
  rw [hfindings, List.mem_singleton] at hfinding
  cases hfinding
  rfl

/-- What happens in the run of the program. -/
def shadowingTrace : List (Moment Deed Machine) :=
  (Run.program (fun _ => none) 100 shadowing).trace .start

/-- The run finds a variable for the last occurrence of `x` that the first declaration has not
made. -/
theorem shadowing_use : ∃ before moment after, shadowingTrace = before ++ moment :: after ∧
    moment.deed = some (.use (sampleName "x" 6 48 10)) ∧
      moment.state.lookup 6 ≠ (History.start.after before).latest (sampleName "x" 6 16 3) := by
  have huse : (shadowingTrace[8]?.any fun moment =>
      moment.deed = some (.use (sampleName "x" 6 48 10)) ∧ moment.state.lookup 6 ≠
        (History.start.after (shadowingTrace.take 8)).latest (sampleName "x" 6 16 3)) = true := by
    decide +kernel
  obtain ⟨moment, hmoment, hmeaning⟩ := (Option.any_eq_true _ _).mp huse
  obtain ⟨hlength, rfl⟩ := List.getElem?_eq_some_iff.mp hmoment
  refine ⟨shadowingTrace.take 8, _, shadowingTrace.drop 9, ?_, of_decide_eq_true hmeaning⟩
  rw [← List.drop_eq_getElem_cons hlength, List.take_append_drop]

/-- Names of accepted programs do not always mean the variable that was made last by the
declaration that the analysis means: the program prints the value of the inner variable. -/
theorem not_use_latest :
    (shadowing.run (fun _ => none) 100).2.output = "2\n" ∧
    ¬∀ p : Program, p.Numbered → p.Accepted → p.gotos = [] → ∀ known fuel before moment after leaf,
      (Run.program known fuel p).trace .start = before ++ moment :: after →
      moment.deed = some (.use leaf) → ∃ v, p.Resolves leaf (.variable v) ∧
        moment.state.lookup leaf.token.id = (History.start.after before).latest v.leaf := by
  refine ⟨by decide +kernel, fun hall => ?_⟩
  obtain ⟨before, moment, after, htrace, hdeed, hne⟩ := shadowing_use
  obtain ⟨v, hv, heq⟩ := hall shadowing shadowing_numbered shadowing_accepted rfl _ _ _ _ _ _
    htrace hdeed
  cases shadowing_resolves hv
  exact hne heq

/-- Where the program prints `x`, the declaration in the branch has made the variable. -/
theorem use_resolved_shadowing : ∃ before moment after v b o,
    shadowing.Numbered ∧ shadowing.Accepted ∧ shadowing.gotos = [] ∧
      shadowingTrace = before ++ moment :: after ∧
      moment.deed = some (.use (sampleName "x" 6 48 10)) ∧
      (∀ e, shadowing.Resolves (sampleName "x" 6 48 10) e ↔ e = .variable v) ∧
      moment.state.lookup 6 = some b ∧ o.token.id = 6 ∧
      (History.start.after before).latest o = some b ∧ (o = v.leaf ∨ o ∈ shadowing.bare) ∧
      ((History.start.after before).latest v.leaf = some b ↔
        ¬(o ∈ shadowing.bare ∧ o ≠ v.leaf)) := by
  obtain ⟨before, moment, after, htrace, hdeed, -⟩ := shadowing_use
  obtain ⟨v, b, o, h⟩ :=
    use_resolved shadowing_numbered shadowing_accepted rfl (fun _ => none) 100 htrace hdeed
  exact ⟨before, moment, after, v, b, o, shadowing_numbered, shadowing_accepted, rfl, htrace,
    hdeed, h⟩

end Program

end MiniC
