import MiniC.Proofs.Annotations.Founded
import MiniC.Proofs.Annotations.Slots
import MiniC.Proofs.Linkage
import MiniC.Proofs.Parsing.Memo
import MiniC.Proofs.Ranges.Executed
import MiniC.Proofs.Types

set_option autoImplicit false

/-! # Runs with the types that the analysis found

A run takes the type of a type name from the analysis if the analysis wrote one down, unless it is
that of a struct. Since no two leaves have the same number, what was written down there was written
down for that type name, and is what its words stand for in every state; so the run does the same as
without it. -/

namespace MiniC

/-- A type name whose words stand for the same type in all states. -/
theorem Run.typeNamed_eq_pure {name : TypeName} {t : CType}
    (h : ∀ find?, CType.ofWords find? name.words = .ok t) : typeNamed name = pure t := by
  simp only [typeNamed, StructTable.typeOf, h]
  rfl

namespace Program

variable {p : Program}

/-- A run resolves each type name as it does without the types that the analysis found. -/
theorem resolve_annotated (hslots : (slotsOf p.occurrences).Nodup) {name : TypeName}
    (hname : .type name ∈ p.occurrences) :
    Run.resolve (fun slot => p.check.2.annotations[slot]?) name =
      Run.resolve (fun _ => none) name := by
  simp only [Run.resolve]
  cases hknown : p.check.2.annotations[name.slot]? with
  | none => rfl
  | some t =>
    obtain ⟨o, ho, hslot, hallows⟩ := p.founded_check _ _ hknown
    -- the leaf that the type was written down for is this type name
    obtain rfl := eq_of_slot?_eq hslots ho hname hslot rfl
    obtain ⟨find?, hwords⟩ := hallows
    by_cases hstruct : t.struct?.isNone
    · have hsame := CType.ofWords_of_struct?_eq_none hwords (Option.isNone_iff_eq_none.mp hstruct)
      simp only [hstruct, if_pos, Run.typeNamed_eq_pure hsame]
    · simp only [hstruct, Bool.false_eq_true, if_false]

/-- A domain to which everything belongs that occurs in the program. -/
def everything (p : Program) : Domain where
  states _ := True
  uses _ _ := True
  occurs o := o ∈ p.occurrences
  targets _ := True
  ints _ := True
  pointers _ := True
  locations _ := True
  shown _ := True

theorem everything_admits (hslots : (slotsOf p.occurrences).Nodup) :
    p.everything.Admits (fun slot => p.check.2.annotations[slot]?) fun _ => none where
  within _ _ := trivial
  computed _ _ _ _ _ _ := trivial
  quoted _ _ _ _ _ := trivial
  sized _ _ _ _ _ _ _ _ := trivial
  printed _ _ _ _ := trivial
  distance _ _ _ _ _ := trivial
  held _ _ _ _ := trivial
  yielded _ _ _ _ _ _ _ _ _ := trivial
  types _ hname := resolve_annotated hslots hname
  target _ _ _ _ := trivial
  null := trivial
  buffers _ _ _ _ _ := trivial
  records _ _ _ _ := trivial
  bound _ _ _ _ _ _ _ _ _ := trivial
  kept _ _ _ _ _ := trivial
  shows _ _ := trivial
  seen _ _ _ _ _ := trivial

theorem everything_good (p : Program) : p.everything.Good .start where
  state := trivial
  held v _ := by cases v <;> trivial
  functions := List.forall_mem_nil _

/-- A program that was read from tokens runs with the types that the analysis found as it does
without them: it ends in the same way, in the same state. -/
theorem run_annotated {tokens : List Token} {tree : Tree} (htree : parseTree tokens = .ok tree)
    (hp : ofTree? tree = some p) (fuel : Nat) :
    p.run (fun slot => p.check.2.annotations[slot]?) fuel = p.run (fun _ => none) fuel := by
  obtain ⟨t, rfl⟩ : ∃ t, tree = Tree.numbered t := by
    unfold parseTree at htree
    dsimp only at htree
    split at htree
    · cases htree
    · cases htree
    · split at htree
      · cases htree
        exact ⟨_, rfl⟩
      · cases htree
  have htogether := (Run.parallel_program (everything_admits (nodup_slotsOf_occurrences hp)) fuel
    p.code_subset).together .start p.everything_good fun _ _ => ⟨trivial, fun _ _ => trivial⟩
  rw [run, run, htogether.exec]

/-! ## A program with a global variable -/

/-- The tokens of the program `int x; int main(){return 0;}`. -/
def declaringTokens : List Token := [
  sampleToken .typeKeyword "int" 1 1,
  sampleToken .identifier "x" 2 5,
  sampleToken .punctuator ";" 3 6,
  sampleToken .typeKeyword "int" 1 8,
  sampleToken .identifier "main" 4 12,
  sampleToken .punctuator "(" 5 16,
  sampleToken .punctuator ")" 6 17,
  sampleToken .punctuator "\x7b" 7 18,
  sampleToken .keyword "return" 8 19,
  sampleToken (.literal (.integer .plain true .decimal)) "0" 9 26,
  sampleToken .punctuator ";" 3 27,
  sampleToken .punctuator "\x7d" 10 28]

/-- The tree of the program, whose leaves have no numbers yet. -/
def declaringTree : Tree :=
  let leaf (place : Nat) : Tree := .leaf (declaringTokens.getD place default) 0
  .node .program [
    .node .variableDecl [leaf 0, leaf 1],
    .node .functionDecl [leaf 3, leaf 4, .node .functionParameters [],
      .node .block [.node .line [.node .returnFrom [leaf 9]]]]]

/-- The program. -/
def declaring : Program where
  items := [
    .declaration ⟨⟨sampleInt 1 0, sampleName "x" 2 5 1, [], none⟩, []⟩,
    .function (sampleInt 8 2) (sampleName "main" 4 12 3) [] [
      .line [.return (some (sampleNumber "0" 9 26 4))]]]

/-- The program is read from its tokens, and the analysis finds the type of the variable. -/
theorem run_annotated_declaring :
    parseTree declaringTokens = .ok declaringTree.numbered ∧
      ofTree? declaringTree.numbered = some declaring ∧
      declaring.check.2.annotations[0]? = some .int ∧
      declaring.run (fun slot => declaring.check.2.annotations[slot]?) 100 =
        declaring.run (fun _ => none) 100 := by
  have htree : parseTree declaringTokens = .ok declaringTree.numbered :=
    parseTree_of_plain (by rfl)
  have hp : ofTree? declaringTree.numbered = some declaring := by rfl
  have hfound : declaring.check.2.annotations[0]? = some .int := by cbv
  exact ⟨htree, hp, hfound, run_annotated htree hp 100⟩

end Program

end MiniC
