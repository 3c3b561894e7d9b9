import MiniC.Proofs.Parsing.Carried
import MiniC.Proofs.Shapes.Forms

set_option autoImplicit false

/-! # The trees of a parse are of the right form

For each rule of the language there is one lemma on the form of its trees, where all other rules
make trees of the forms that they have to. By induction on the fuel of a parse, all rules do. -/

namespace MiniC

open Grammar Rule

/-! ## Matched trees -/

namespace Grammar

variable {ρ : Type} {rules : ρ → Except ParseFailure (Grammar ρ)} {tokens : Array Token}
  {M : Grammar ρ → Nat → Tree → Nat → Prop}

/-- Whether a grammar matches a tree somewhere. -/
def Matched (M : Grammar ρ → Nat → Tree → Nat → Prop) (g : Grammar ρ) (tree : Tree) : Prop :=
  ∃ place next, M g place tree next

/-- Whether all trees that a grammar matches have a property. -/
def Builds (M : Grammar ρ → Nat → Tree → Nat → Prop) (g : Grammar ρ) (P : Tree → Prop) : Prop :=
  ∀ tree, Matched M g tree → P tree

section

variable {g first second element inner operand : Grammar ρ} {P Q : Tree → Prop}

theorem Builds.imp (hg : Builds M g P) (h : ∀ tree, P tree → Q tree) : Builds M g Q :=
  fun tree htree => h tree (hg tree htree)

theorem MatchesSteps.length_eq {steps : List (Step (Grammar ρ))} {trees : List Tree}
    {place next : Nat} (h : MatchesSteps M steps place trees next) :
    trees.length = steps.length := by
  induction h with
  | nil place => rfl
  | cons _ _ ih => exact congrArg (· + 1) ih

variable (hunfold : Unfolds rules tokens M)

include hunfold

theorem builds_token {accepts : Token → Bool}
    (h : ∀ t ∈ tokens, accepts t = true → P (.leaf t 0)) : Builds M (.token accepts) P := by
  rintro tree ⟨place, next, hmatch⟩
  obtain ⟨t, htoken, ht, rfl, -⟩ := exists_of_matches_token hunfold hmatch
  exact h t (Array.mem_of_getElem? htoken) ht

theorem Builds.choice (hfirst : Builds M first P) (hsecond : Builds M second P) :
    Builds M (.choice first second) P := by
  rintro tree ⟨place, next, hmatch⟩
  cases hunfold _ _ _ _ hmatch with
  | first htree => exact hfirst tree ⟨_, _, htree⟩
  | second htree => exact hsecond tree ⟨_, _, htree⟩

theorem Builds.oneOf {others : List (Grammar ρ)} (hfirst : Builds M first P)
    (hothers : others.Forall fun other => Builds M other P) :
    Builds M (.oneOf first others) P := by
  induction others generalizing first with
  | nil => exact hfirst
  | cons second others ih =>
    rw [List.forall_cons] at hothers
    exact ih (hfirst.choice hunfold hothers.1) hothers.2

theorem Builds.optional (hg : Builds M g P) (hempty : P .empty) :
    Builds M (.choice g .empty) P := by
  refine hg.choice hunfold ?_
  rintro tree ⟨place, next, hmatch⟩
  cases hunfold _ _ _ _ hmatch
  exact hempty

/-- The trees that the steps of a sequence matched. -/
theorem exists_of_matched_sequence {steps : List (Step (Grammar ρ))}
    {merge : List Tree → Except SyntaxError Tree} {tree : Tree}
    (h : Matched M (.sequence steps merge) tree) :
    ∃ trees, merge trees = .ok tree ∧ trees.length = steps.length ∧
      ∀ (i : Nat) {step : Step (Grammar ρ)}, steps[i]? = some step →
        Matched M step.grammar (pick i trees) := by
  obtain ⟨place, next, hmatch⟩ := h
  cases hunfold _ _ _ _ hmatch with
  | sequence hsteps hmerge =>
    exact ⟨_, hmerge, hsteps.length_eq, fun i _ hstep => hsteps.pick i hstep⟩

/-- The tree of a sequence has a property if it follows from what the steps matched. -/
theorem Builds.made {steps : List (Step (Grammar ρ))} {f : List Tree → Tree}
    (hf : ∀ trees, (∀ (i : Nat) {step : Step (Grammar ρ)}, steps[i]? = some step →
      Matched M step.grammar (pick i trees)) → P (f trees)) :
    Builds M (.sequence steps (make f)) P := by
  intro tree htree
  obtain ⟨trees, hmerge, -, htrees⟩ := exists_of_matched_sequence hunfold htree
  cases hmerge
  exact hf trees htrees

theorem Builds.fold {other : Grammar ρ} {merge : Tree → Tree → Tree} {canBeAlone : Bool}
    (hfirst : Builds M first P)
    (hother : ∀ tree piece, P tree → Matched M other piece → P (merge tree piece)) :
    Builds M (.fold first other merge canBeAlone) P := by
  rintro tree ⟨place, next, hmatch⟩
  exact fold_induction hunfold (J := fun tree _ => P tree)
    (fun tree mid htree => hfirst tree ⟨_, _, htree⟩)
    (fun tree mid piece mid' htree hpiece => hother tree piece htree ⟨_, _, hpiece⟩) hmatch

theorem Builds.items {label : Label} {separator : Option String} {canBeEmpty : Bool}
    (helement : Builds M element P)
    (h : ∀ trees, (∀ t ∈ trees, P t) → (trees = [] → canBeEmpty = true) → Q (.node label trees)) :
    Builds M (.items element label separator canBeEmpty) Q := by
  rintro tree ⟨place, next, hmatch⟩
  cases hunfold _ _ _ _ hmatch with
  | items hitems hempty =>
    exact h _ (fun t ht => helement t (hitems.exists_match t ht)) hempty

theorem Builds.block {opening closing : String} {label : Label} (hinner : Builds M inner P)
    (h : ∀ tree, P tree → Q (.node label [tree])) :
    Builds M (.block opening closing inner label) Q := by
  rintro tree ⟨place, next, hmatch⟩
  cases hunfold _ _ _ _ hmatch with
  | block _ htree _ => exact h _ (hinner _ ⟨_, _, htree⟩)

theorem Builds.prefixed {operator : String} {label : Label} (hoperand : Builds M operand P)
    (h : ∀ tree, P tree → Q (.node label [tree])) :
    Builds M (.prefixed operator operand label) Q := by
  rintro tree ⟨place, next, hmatch⟩
  cases hunfold _ _ _ _ hmatch with
  | prefixed _ htree => exact h _ (hoperand _ ⟨_, _, htree⟩)

theorem Builds.suffixed {operator : String} {label : Label} (hoperand : Builds M operand P)
    (h : ∀ tree, P tree → Q (.node label [tree])) :
    Builds M (.suffixed operand operator label) Q := by
  rintro tree ⟨place, next, hmatch⟩
  cases hunfold _ _ _ _ hmatch with
  | suffixed htree _ => exact h _ (hoperand _ ⟨_, _, htree⟩)

end

end Grammar

/-! ## Operators -/

section

variable {tokens : Array Token} {M : G → Nat → Tree → Nat → Prop}

theorem builds_punctOf (hunfold : Unfolds (fun name => .ok (Rule.grammar name)) tokens M)
    {operators : List String} : Builds M (punctOf operators) fun tree =>
      ∃ token : Token, token.text ∈ operators ∧ tree = .leaf token 0 :=
  builds_token hunfold fun t _ ht => ⟨t, by simp_all, rfl⟩

/-- The trees of a binary level have a property if an operator with two operands does, the left one
of which may be such a tree itself. -/
theorem Grammar.Builds.level (hunfold : Unfolds (fun name => .ok (Rule.grammar name)) tokens M)
    {operand : Rule} {operators : List String} {P Q : Tree → Prop}
    (hoperand : Builds M (.rule operand) Q) (himp : ∀ t, Q t → P t)
    (hmerge : ∀ op ∈ operators, ∀ left right, P left → Q right →
      P (.node (.word op) [left, right])) :
    Builds M (Rule.level operand operators) P := by
  refine .choice hunfold (.fold hunfold (hoperand.imp himp) ?_) (hoperand.imp himp)
  intro left piece hleft hpiece
  obtain ⟨trees, hmake, hlength, htrees⟩ := exists_of_matched_sequence hunfold hpiece
  cases hmake
  obtain ⟨mark, right, rfl⟩ := List.length_eq_two.mp hlength
  obtain ⟨operator, hop, hmark⟩ := builds_punctOf hunfold mark (htrees 0 rfl)
  rw [hmark]
  exact hmerge operator.text hop left right hleft (hoperand right (htrees 1 rfl))

end

/-! ## Type names and declarators -/

theorem exists_of_shapes_typeName {t : Tree} (h : Form.typeName.Shapes t) :
    ∃ first rest, t.typeTokens = first :: rest ∧ first.kind = .typeKeyword ∧ first.text ≠ "*" := by
  cases h with
  | typeWord hkind htext => exact ⟨_, _, rfl, hkind, htext⟩
  | typeWords hkind htext => exact ⟨_, _, rfl, hkind, htext⟩

theorem shapes_joinTypes {left right : Tree} (hleft : Form.typeName.Shapes left)
    (hright : right.typeTokens ≠ []) : Form.typeName.Shapes (joinTypes left right) := by
  obtain ⟨first, rest, hwords, hkind, htext⟩ := exists_of_shapes_typeName hleft
  obtain ⟨second, others, hothers⟩ := List.exists_cons_of_ne_nil hright
  rw [joinTypes, hwords, hothers]
  cases rest with
  | nil => exact .typeWords hkind htext
  | cons _ _ => exact .typeWords hkind htext

theorem shapes_ofTypeTokens {first : Token} (hkind : first.kind = .typeKeyword)
    (htext : first.text ≠ "*") (rest : List Token) :
    Form.typeName.Shapes (Tree.ofTypeTokens (first :: rest)) := by
  cases rest with
  | nil => exact .typeWord hkind htext
  | cons _ _ => exact .typeWords hkind htext

/-- The words in front of the first pointer mark of a declarator begin with a type keyword. -/
theorem exists_of_shapes_declarator {t : Tree} (h : Form.declarator.Shapes t) :
    ∃ first rest, baseWords t = first :: rest ∧ first.kind = .typeKeyword ∧ first.text ≠ "*" := by
  have htype : ∃ type, Form.typeName.Shapes type ∧
      baseWords t = type.typeTokens.takeWhile fun t => t.text ≠ "*" := by
    cases h with
    | bare hdecl =>
      cases hdecl with
      | «variable» htype _ _ => exact ⟨_, htype, rfl⟩
    | initialized hdecl _ =>
      cases hdecl with
      | «variable» htype _ _ => exact ⟨_, htype, rfl⟩
  obtain ⟨type, htype, hbase⟩ := htype
  obtain ⟨first, rest, hwords, hkind, htext⟩ := exists_of_shapes_typeName htype
  refine ⟨first, rest.takeWhile fun t => t.text ≠ "*", ?_, hkind, htext⟩
  rw [hbase, hwords, List.takeWhile_cons_of_pos (by simpa using htext)]

theorem shapes_withInitializer {decl init : Tree} (hdecl : Form.variable.Shapes decl)
    (hinit : init = .empty ∨ Form.expression.Shapes init) :
    Form.declarator.Shapes (withInitializer decl init) := by
  obtain rfl | hinit := hinit
  · exact .bare hdecl
  · cases init with
    | empty => exact .bare hdecl
    | _ => exact .initialized hdecl hinit

theorem shapes_addDim {decl dim : Tree} (hdecl : Form.variable.Shapes decl)
    (hdim : Form.dimension.Shapes dim) : Form.variable.Shapes (addDim decl dim) := by
  cases hdecl with
  | «variable» htype hname hdims =>
    refine .variable htype hname fun t ht => ?_
    rcases List.mem_append.mp ht with ht | ht
    · exact hdims t ht
    · exact List.mem_singleton.mp ht ▸ hdim

/-- A group of declarators has at least two. -/
theorem shapes_concat {first : Tree} {rest : List Tree} {last : Tree}
    (hdecls : ∀ t ∈ first :: rest, Form.declarator.Shapes t)
    (hlast : Form.declarator.Shapes last) :
    Form.declaration.Shapes (.node .variablesDecl (first :: rest ++ [last])) := by
  have hall : ∀ t ∈ first :: rest ++ [last], Form.declarator.Shapes t := by
    intro t ht
    rcases List.mem_append.mp ht with ht | ht
    · exact hdecls t ht
    · exact List.mem_singleton.mp ht ▸ hlast
  cases rest with
  | nil => exact .several hall
  | cons _ _ => exact .several hall

theorem shapes_addDeclarator {tree marks name dims init : Tree}
    (htree : Form.declaration.Shapes tree) (hname : Form.name.Shapes name)
    (hdims : ∀ t ∈ dims.children, Form.dimension.Shapes t)
    (hinit : init = .empty ∨ Form.expression.Shapes init) :
    Form.declaration.Shapes (addDeclarator tree (.group [marks, name, dims, init])) := by
  have hlast : ∀ first, Form.declarator.Shapes first → Form.declarator.Shapes
      (withInitializer (.node .variableDecl (Tree.ofTypeTokens
        (baseWords first ++ marks.children.flatMap Tree.typeTokens) :: name :: dims.children))
        init) := by
    intro first hfirst
    obtain ⟨word, words, hbase, hkind, htext⟩ := exists_of_shapes_declarator hfirst
    rw [hbase]
    exact shapes_withInitializer (.variable (shapes_ofTypeTokens hkind htext _) hname hdims) hinit
  cases htree with
  | single hdecl =>
    have hsingle : ∀ t ∈ [tree], Form.declarator.Shapes t := by simpa using hdecl
    have hgroup := shapes_concat hsingle (hlast tree hdecl)
    cases hdecl with
    | bare hdecl =>
      cases hdecl
      exact hgroup
    | initialized _ _ => exact hgroup
  | several hdecls => exact shapes_concat hdecls (hlast _ (hdecls _ List.mem_cons_self))

end MiniC
