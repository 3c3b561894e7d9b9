import Mathlib
import MiniC.Proofs.Names.Checked
import MiniC.Proofs.Names.Noted
import MiniC.Proofs.Names.Programs

set_option autoImplicit false

/-! # Accepted programs and their runs

Every run of a program that the analysis accepts finds the functions that are called and the
variables that are named, with the right numbers of arguments, and makes no jump that leads nowhere.
The analysis and the run have scopes at different places; between the two stands the judgement that
a program is linked. -/

namespace MiniC

/-- The name of the function that a piece of a program defines. -/
def Item.functionName? : Item → Option String
  | .function _ name _ _ => some name.token.text
  | _ => none

namespace Program

/-! ## Names in programs -/

/-- The names in a program, apart from those of the variables that it declares. -/
def names (p : Program) : List Leaf := p.items.flatMap Item.names

/-- The variables and parameters that a program declares. -/
def declared (p : Program) : List Leaf := p.items.flatMap Item.declared

/-- The labels that a program jumps to. -/
def gotos (p : Program) : List Leaf := p.items.flatMap Item.gotos

/-- The variables that are declared in a program as the whole branch of a condition, or as the whole
body of a loop, without a block around them. -/
def bare (p : Program) : List Leaf := p.items.flatMap Item.bare

/-- Whether the names in a program are numbered as those in a source text are: one number stands for
one text only, and no two names are the same occurrence. -/
structure Numbered (p : Program) : Prop where
  interned : ∀ l ∈ p.names, ∀ l' ∈ p.names, l.token.id = l'.token.id →
    l.token.text = l'.token.text
  distinct : (p.names ++ p.declared).Nodup

instance : DecidablePred Numbered := fun p =>
  decidable_of_iff
    ((∀ l ∈ p.names, ∀ l' ∈ p.names, l.token.id = l'.token.id → l.token.text = l'.token.text) ∧
      (p.names ++ p.declared).Nodup)
    ⟨fun h => ⟨h.1, h.2⟩, fun h => ⟨h.interned, h.distinct⟩⟩

/-- Whether a program has a function of its own under the name of the function that is there without
a declaration. -/
def DefinesPrint (p : Program) : Prop :=
  ∃ i ∈ p.items, i.functionName? = some printName

instance : DecidablePred DefinesPrint :=
  fun p => inferInstanceAs (Decidable (∃ i ∈ p.items, i.functionName? = some printName))

/-- What the runs of a program are looked at with. -/
def setting (p : Program) : Setting where
  resolves := p.Resolves
  isPrint id := ∃ l ∈ p.names, l.token.id = id ∧ l.token.text = printName
  hasPrint := p.DefinesPrint
  hasGotos := p.gotos ≠ []
  globals := p.items.flatMap Item.globals
  bare := p.bare

variable {p : Program}

/-- An occurrence of a name has at most one meaning. -/
theorem resolves_unique (hnumbered : p.Numbered) {leaf : Leaf} {e e' : Entity}
    (he : p.Resolves leaf e) (he' : p.Resolves leaf e') : e = e' := by
  obtain ⟨moment, hmem, hdeed⟩ := he
  obtain ⟨moment', hmem', hdeed'⟩ := he'
  have hcount : p.names.count leaf ≤ 1 :=
    List.nodup_iff_count_le_one.mp hnumbered.distinct.of_append_left leaf
  have hnotes := Check.notes_program p .start leaf
  obtain rfl := Check.moment_unique (Nat.le_trans hnotes hcount) hmem hmem' hdeed hdeed'
  rw [hdeed] at hdeed'
  cases hdeed'
  rfl

/-- An accepted program is linked as its own analysis says. -/
theorem linked (hnumbered : p.Numbered) (haccepted : p.Accepted) :
    Item.AllLinked p.setting.toLinkage .empty p.items := by
  refine linked_of_accepted haccepted (fun _ _ => id) (fun l hl htext => ⟨l, hl, rfl, htext⟩)
    (fun l hl => List.ne_nil_of_mem hl) ?_
  rintro returnType name params body hmem ⟨l, hl, hid, htext⟩
  have hname : name ∈ p.names := List.mem_flatMap.mpr ⟨_, hmem, List.mem_cons_self⟩
  have hprint : name.token.text = printName :=
    (hnumbered.interned name hname l hl hid.symm).trans htext
  exact ⟨_, hmem, congrArg some hprint⟩

/-- No two pieces of a program declare the same variable. -/
theorem declared_apart (hnumbered : p.Numbered) {i j : Item} (hi : i ∈ p.items) (hj : j ∈ p.items)
    (hne : i ≠ j) {l : Leaf} (hl : l ∈ i.declared) : l ∉ j.declared := by
  have hpairs := (List.nodup_flatMap.mp hnumbered.distinct.of_append_right).2
  have hsymm : Std.Symm (Function.onFun List.Disjoint Item.declared) :=
    ⟨fun _ _ h => List.disjoint_symm h⟩
  have hdisjoint := hpairs.forall hi hj hne
  exact fun hl' => hdisjoint hl hl'

/-- The declarations in the pieces of a program are placed. -/
theorem houses (hnumbered : p.Numbered) (i : Item) (hi : i ∈ p.items) : p.setting.Houses i where
  globals l hl := List.mem_flatMap.mpr ⟨i, hi, hl⟩
  body := by
    rintro returnType name params body rfl
    have hnodup := (List.nodup_flatMap.mp hnumbered.distinct.of_append_right).1 _ hi
    obtain ⟨-, hinner, hparams⟩ := List.nodup_append.mp hnodup
    refine ⟨List.forall_mem_nil _, hinner, fun l hl hmem => ?_,
      fun l hl => List.mem_flatMap.mpr ⟨_, hi, hl⟩⟩
    rcases List.mem_append.mp hmem with hmem | hmem
    · exact hparams l hmem l hl rfl
    · obtain ⟨j, hj, hglobal⟩ := List.mem_flatMap.mp hmem
      cases j with
      | declaration d =>
        exact declared_apart hnumbered hi hj (fun h => by cases h) (List.mem_append_right _ hl)
          hglobal
      | _ => cases hglobal

/-- What every run of an accepted program ensures. -/
theorem ensures_run (hnumbered : p.Numbered) (haccepted : p.Accepted)
    (known : Nat → Option CType) (fuel : Nat) :
    Run.Ensures p.setting (Run.program known fuel p) .start .start fun _ _ _ => True :=
  Run.ensures_program p.setting known fuel p (linked hnumbered haccepted) (houses hnumbered)

/-! ## Faults of accepted programs -/

/-- A run of an accepted program stops for a reason that is allowed. -/
theorem allows_of_run (hnumbered : p.Numbered) (haccepted : p.Accepted)
    {known : Nat → Option CType} {fuel : Nat} {stop : Stop}
    (hstop : (p.run known fuel).1 = .error stop) : p.setting.Allows stop := by
  unfold run at hstop
  cases hexec : (Run.program known fuel p).exec .start with
  | ok _ t =>
    rw [hexec] at hstop
    cases hstop
  | error stop' t =>
    rw [hexec] at hstop
    cases hstop
    exact (ensures_run hnumbered haccepted known fuel).error _ t hexec

/-- A token in the first line of a text. -/
def sampleToken (kind : TokenKind) (text : String) (id column : Nat) : Token :=
  ⟨⟨kind, text, ⟨1, column⟩, []⟩, id⟩

/-- An occurrence of a name in the first line of a text. -/
def sampleName (text : String) (id column slot : Nat) : Leaf :=
  ⟨sampleToken .identifier text id column, slot⟩

/-- An occurrence of the type `int`, which is the first word of the text. -/
def sampleInt (column slot : Nat) : TypeName :=
  ⟨sampleToken .typeKeyword "int" 1 column, [], slot⟩

/-- A decimal number in the first line of a text. -/
def sampleNumber (text : String) (id column slot : Nat) : Expr :=
  let kind := .integer .plain true .decimal
  .literal ⟨sampleToken (.literal kind) text id column, slot⟩ kind

/-- The program `int f(int n){return 1/n;} int main(){while(1)break; return f(0);}`. -/
def dividing : Program where
  items := [
    .function (sampleInt 1 0) (sampleName "f" 2 5 1)
      [⟨sampleInt 7 2, sampleName "n" 4 11 3, [], none⟩]
      [.line [.return (some (.binary (.arith .div) (sampleNumber "1" 8 21 4)
        (.identifier (sampleName "n" 4 23 5))))]],
    .function (sampleInt 27 6) (sampleName "main" 12 31 7) []
      [.while (sampleNumber "1" 8 44 8) (.line [.break (sampleToken .keyword "break" 14 46)]),
       .line [.return (some (.call (.identifier (sampleName "f" 2 60 9))
        [sampleNumber "0" 15 62 10]))]]]

end Program

end MiniC
