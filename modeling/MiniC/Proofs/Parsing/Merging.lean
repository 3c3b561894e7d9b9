import MiniC.Proofs.Parsing.Termination
import MiniC.Proofs.Precedence.Ordered
import MiniC.Proofs.Shapes.Built

set_option autoImplicit false

/-! # Properties that merging keeps

Most rules of the language only put trees together under a label that is neither that of an operator
nor that of a wrapper. A property of trees that such a step cannot break (`Tree.Composes`) is one
of the trees of all these rules, if it is one of the trees of the rules that they call. -/

namespace MiniC

open Grammar Rule

/-! ## Grammars that keep a property -/

namespace Grammar

variable {ρ : Type}

/-- Whether a grammar makes trees with a property of trees that have it. -/
def Keeps (P : Tree → Prop) : Grammar ρ → Prop
  | .token _ | .empty | .rule _ => True
  | .choice first second => first.Keeps P ∧ second.Keeps P
  | .sequence steps merge => keepsAll P steps ∧
      ∀ trees tree, (∀ t ∈ trees, P t) → merge trees = .ok tree → P tree
  | .fold first other merge _ => first.Keeps P ∧ other.Keeps P ∧
      ∀ tree piece, P tree → P piece → P (merge tree piece)
  | .block _ _ inner label => inner.Keeps P ∧ ∀ t, P t → P (.node label [t])
  | .items element label _ _ => element.Keeps P ∧
      ∀ trees, (∀ t ∈ trees, P t) → P (.node label trees)
  | .prefixed _ operand label => operand.Keeps P ∧ ∀ t, P t → P (.node label [t])
  | .suffixed operand _ label => operand.Keeps P ∧ ∀ t, P t → P (.node label [t])
  | .ahead inner _ merge => inner.Keeps P ∧ ∀ t, P t → P (merge t)
where
  /-- Whether the grammars of all steps do. -/
  keepsAll (P : Tree → Prop) : List (Step (Grammar ρ)) → Prop
    | [] => True
    | ⟨g, _⟩ :: rest => g.Keeps P ∧ keepsAll P rest

/-- Whether a grammar only takes over trees of tokens and of rules. -/
def isSimple : Grammar ρ → Bool
  | .token _ | .empty | .rule _ => true
  | .choice first second => first.isSimple && second.isSimple
  | _ => false

variable {rules : ρ → Except ParseFailure (Grammar ρ)} {tokens : Array Token}
  {M : Grammar ρ → Nat → Tree → Nat → Prop} {P : Tree → Prop}

theorem Keeps.of_isSimple {g : Grammar ρ} (h : g.isSimple = true) : g.Keeps P := by
  induction g using isSimple.induct with
  | case1 | case2 | case3 => trivial
  | case4 first second ihfirst ihsecond =>
    rw [isSimple, Bool.and_eq_true] at h
    exact ⟨ihfirst h.1, ihsecond h.2⟩
  | case5 => simp_all [isSimple]

theorem keepsAll_of_isSimple {steps : List (Step (Grammar ρ))}
    (h : steps.all (·.grammar.isSimple) = true) : Keeps.keepsAll P steps := by
  induction steps with
  | nil => trivial
  | cons step rest ih =>
    rw [List.all_cons, Bool.and_eq_true] at h
    exact ⟨.of_isSimple h.1, ih h.2⟩

/-- The trees of a sequence have a property if the trees of its steps have one. -/
theorem Builds.sequence (hunfold : Unfolds rules tokens M) {Q : Tree → Prop}
    {steps : List (Step (Grammar ρ))} {merge : List Tree → Except SyntaxError Tree}
    (hsteps : ∀ step ∈ steps, Builds M step.grammar P)
    (hmerge : ∀ trees tree, (∀ t ∈ trees, P t) → merge trees = .ok tree → Q tree) :
    Builds M (.sequence steps merge) Q := by
  intro tree htree
  obtain ⟨trees, hok, hlength, htrees⟩ := exists_of_matched_sequence hunfold htree
  refine hmerge trees tree (fun t ht => ?_) hok
  obtain ⟨i, hi, rfl⟩ := List.mem_iff_getElem.mp ht
  have hstep : steps[i]? = some steps[i] := List.getElem?_eq_getElem (hlength ▸ hi)
  have hmatched := hsteps _ (List.getElem_mem _) _ (htrees i hstep)
  rwa [pick, List.getD_eq_getElem _ _ hi] at hmatched

/-- A property of what is merged at least once. -/
theorem Builds.fold_merged (hunfold : Unfolds rules tokens M) {Q : Tree → Prop}
    {first other : Grammar ρ} {merge : Tree → Tree → Tree} (hfirst : Builds M first P)
    (hother : ∀ tree piece, P tree → Matched M other piece →
      P (merge tree piece) ∧ Q (merge tree piece)) :
    Builds M (.fold first other merge false) Q := by
  rintro tree ⟨place, next, hmatch⟩
  cases hunfold _ _ _ _ hmatch with
  | @fold _ _ _ _ _ mid mid' _ start piece _ hstart hpiece hrest =>
    have hmerged := hother start piece (hfirst _ ⟨_, _, hstart⟩) ⟨_, _, hpiece⟩
    clear hmatch hstart hpiece
    generalize merge start piece = merged at hmerged hrest
    induction hrest with
    | done tree place => exact hmerged.2
    | more hpiece _ ih => exact ih (hother _ _ hmerged.1 ⟨_, _, hpiece⟩)

/-- A property that merging keeps is one of all trees of a grammar, if it is one of leaves and of
the trees of all rules. -/
theorem builds_of_keeps (hunfold : Unfolds rules tokens M) (hleaf : ∀ t, P (.leaf t 0))
    (hempty : P .empty) (hrule : ∀ name, Builds M (.rule name) P) :
    ∀ g : Grammar ρ, g.Keeps P → Builds M g P
  | .token _, _ => builds_token hunfold fun t _ _ => hleaf t
  | .empty, _ => by
    rintro tree ⟨place, next, hmatch⟩
    cases hunfold _ _ _ _ hmatch
    exact hempty
  | .rule name, _ => hrule name
  | .choice first second, h =>
    (builds_of_keeps hunfold hleaf hempty hrule first h.1).choice hunfold
      (builds_of_keeps hunfold hleaf hempty hrule second h.2)
  | .sequence steps merge, h =>
    .sequence hunfold (builds_of_keepsAll hunfold hleaf hempty hrule steps h.1) h.2
  | .fold first other merge _, h =>
    (builds_of_keeps hunfold hleaf hempty hrule first h.1).fold hunfold
      fun tree piece htree hpiece => h.2.2 tree piece htree
        (builds_of_keeps hunfold hleaf hempty hrule other h.2.1 piece hpiece)
  | .block _ _ inner _, h =>
    (builds_of_keeps hunfold hleaf hempty hrule inner h.1).block hunfold h.2
  | .items element _ _ _, h =>
    (builds_of_keeps hunfold hleaf hempty hrule element h.1).items hunfold
      fun trees htrees _ => h.2 trees htrees
  | .prefixed _ operand _, h =>
    (builds_of_keeps hunfold hleaf hempty hrule operand h.1).prefixed hunfold h.2
  | .suffixed operand _ _, h =>
    (builds_of_keeps hunfold hleaf hempty hrule operand h.1).suffixed hunfold h.2
  | .ahead inner _ merge, h => by
    rintro tree ⟨place, next, hmatch⟩
    cases hunfold _ _ _ _ hmatch with
    | ahead hinner _ =>
      exact h.2 _ (builds_of_keeps hunfold hleaf hempty hrule inner h.1 _ ⟨_, _, hinner⟩)
where
  builds_of_keepsAll (hunfold : Unfolds rules tokens M) (hleaf : ∀ t, P (.leaf t 0))
      (hempty : P .empty) (hrule : ∀ name, Builds M (.rule name) P) :
      ∀ steps : List (Step (Grammar ρ)), Keeps.keepsAll P steps →
        ∀ step ∈ steps, Builds M step.grammar P
    | [], _ => nofun
    | ⟨g, _⟩ :: rest, h => List.forall_mem_cons.mpr
      ⟨builds_of_keeps hunfold hleaf hempty hrule g h.1,
       builds_of_keepsAll hunfold hleaf hempty hrule rest h.2⟩

end Grammar

/-! ## Labels of nodes that only hold their pieces together -/

namespace Label

/-- The names of the nodes that an outline may leave out. -/
def wrapperNames : List String := ["(..)", "Line ;"]

/-- Whether a node is no wrapper, and not named like one by the grammar either. -/
def isShown : Label → Bool
  | .word text => !wrapperNames.contains text
  | label => !label.isWrapper

/-- Whether a node is neither that of an operator nor a wrapper. -/
def isConstruct (label : Label) : Bool :=
  !Tree.isOperator label && label.isShown

theorem not_isWrapper_of_isShown {label : Label} (h : label.isShown) : label.isWrapper = false := by
  cases label <;> simp_all [isShown, isWrapper]

theorem not_mem_wrapperNames_of_isShown {label : Label} (h : label.isShown) :
    label.text ∉ wrapperNames := by
  cases label with
  | word _ => simpa [isShown, Label.text] using h
  | parens | line => cases h
  | _ => decide

theorem mem_wrapperNames_of_isWrapper {label : Label} (h : label.isWrapper) :
    label.text ∈ wrapperNames := by
  cases label with
  | parens | line => decide
  | _ => cases h

theorem isOperator_of_isConstruct {label : Label} (h : label.isConstruct) :
    Tree.isOperator label = false := by
  simp only [isConstruct, Bool.and_eq_true, Bool.not_eq_true'] at h
  exact h.1

theorem isShown_of_isConstruct {label : Label} (h : label.isConstruct) : label.isShown := by
  simp only [isConstruct, Bool.and_eq_true] at h
  exact h.2

end Label

/-! ## Merging trees -/

namespace Tree

/-- Whether a property of trees is kept where trees are put together or taken apart, unless the
label is that of an operator or a wrapper. -/
structure Composes (P : Tree → Prop) : Prop where
  empty : P .empty
  leaf (token : Token) : P (.leaf token 0)
  typeName (words : List Token) : P (.typeName words 0)
  group {children : List Tree} (hchildren : ∀ t ∈ children, P t) : P (.group children)
  construct {label : Label} {children : List Tree} (hlabel : label.isConstruct)
    (hchildren : ∀ t ∈ children, P t) : P (.node label children)
  of_mem_children {t child : Tree} (h : P t) (hchild : child ∈ t.children) : P child

namespace Composes

variable {P : Tree → Prop} (hP : Composes P) {trees : List Tree}

include hP

theorem pick (h : ∀ t ∈ trees, P t) (place : Nat) : P (Rule.pick place trees) := by
  rw [Rule.pick, List.getD_eq_getElem?_getD]
  cases htree : trees[place]? with
  | none => exact hP.empty
  | some t => exact h t (List.mem_of_getElem? htree)

theorem nodeOf {label : Label} {places : List Nat} (hlabel : label.isConstruct)
    (h : ∀ t ∈ trees, P t) : P (Rule.nodeOf label places trees) :=
  hP.construct hlabel <| List.forall_mem_map.mpr fun place _ => hP.pick h place

theorem cons_children {label : Label} {first second : Tree} (hlabel : label.isConstruct)
    (hfirst : P first) (hsecond : P second) : P (.node label (first :: second.children)) :=
  hP.construct hlabel <|
    List.forall_mem_cons.mpr ⟨hfirst, fun _ => hP.of_mem_children hsecond⟩

theorem children_concat {label : Label} {first second : Tree} (hlabel : label.isConstruct)
    (hfirst : P first) (hsecond : P second) : P (.node label (first.children ++ [second])) := by
  refine hP.construct hlabel fun t ht => ?_
  rcases List.mem_append.mp ht with ht | ht
  · exact hP.of_mem_children hfirst ht
  · exact List.mem_singleton.mp ht ▸ hsecond

theorem withElse (h : ∀ t ∈ trees, P t) : P (Rule.withElse trees) := by
  rw [Rule.withElse]
  split
  · exact hP.pick h 0
  · exact hP.children_concat rfl (hP.pick h 0) (hP.pick h 1)

theorem switchTree {tree : Tree} (h : ∀ t ∈ trees, P t)
    (htree : Rule.switchTree trees = .ok tree) : P tree := by
  rw [Rule.switchTree] at htree
  split at htree
  · cases htree
  · cases htree
    exact hP.construct rfl <| List.forall_mem_cons.mpr
      ⟨hP.pick h 2, List.forall_mem_singleton.mpr (hP.pick h 5)⟩

theorem dimension (h : ∀ t ∈ trees, P t) : P (Rule.dimension trees) := by
  rw [Rule.dimension]
  split
  · exact hP.construct rfl <| List.forall_mem_singleton.mpr hP.empty
  · exact hP.construct rfl <| List.forall_mem_singleton.mpr (hP.pick h 1)

theorem withInitializer {decl init : Tree} (hdecl : P decl) (hinit : P init) :
    P (Rule.withInitializer decl init) := by
  rw [Rule.withInitializer.eq_def]
  split
  · exact hdecl
  · exact hP.construct rfl <|
      List.forall_mem_cons.mpr ⟨hdecl, List.forall_mem_singleton.mpr hinit⟩

theorem ofTypeTokens (words : List Token) : P (Tree.ofTypeTokens words) := by
  rw [Tree.ofTypeTokens.eq_def]
  split
  · exact hP.leaf _
  · exact hP.typeName _

theorem addDeclarator {tree piece : Tree} (htree : P tree) (hpiece : P piece) :
    P (Rule.addDeclarator tree piece) := by
  fun_cases Rule.addDeclarator tree piece
  next decls marks name dims init words decl =>
    have hpieces : ∀ t ∈ [marks, name, dims, init], P t := fun _ => hP.of_mem_children hpiece
    simp only [List.forall_mem_cons] at hpieces
    obtain ⟨-, hname, hdims, hinit, -⟩ := hpieces
    have hdecls : ∀ t ∈ decls, P t := by
      intro t ht
      simp only [decls] at ht
      split at ht
      · exact hP.of_mem_children htree ht
      · exact List.mem_singleton.mp ht ▸ htree
    have hdecl : P decl := hP.construct rfl <| List.forall_mem_cons.mpr
      ⟨hP.ofTypeTokens _, List.forall_mem_cons.mpr ⟨hname, fun _ => hP.of_mem_children hdims⟩⟩
    exact hP.construct rfl <| List.forall_mem_append.mpr
      ⟨hdecls, List.forall_mem_singleton.mpr (hP.withInitializer hdecl hinit)⟩
  · exact htree

end Composes

end Tree

/-! ## Rules that only put trees together -/

section

variable {P : Tree → Prop} {steps : List (Step G)}

/-- A sequence keeps a property if its steps and the making of its tree do. -/
theorem keeps_seq {f : List Tree → Tree} (hsteps : Keeps.keepsAll P steps)
    (hf : ∀ trees, (∀ t ∈ trees, P t) → P (f trees)) : (seq steps f).Keeps P := by
  refine ⟨hsteps, fun trees tree htrees hmake => ?_⟩
  cases hmake
  exact hf trees htrees

variable (hP : Tree.Composes P)

include hP

theorem keeps_pick {place : Nat} (hsteps : steps.all (·.grammar.isSimple) = true) :
    (seq steps (pick place)).Keeps P :=
  keeps_seq (keepsAll_of_isSimple hsteps) fun _ h => hP.pick h place

theorem keeps_nodeOf {label : Label} {places : List Nat}
    (hsteps : steps.all (·.grammar.isSimple) = true) (hlabel : label.isConstruct) :
    (seq steps (nodeOf label places)).Keeps P :=
  keeps_seq (keepsAll_of_isSimple hsteps) fun _ => hP.nodeOf hlabel

theorem keeps_many {element : G} {label : Label} (helement : element.Keeps P)
    (hlabel : label.isConstruct) : (many element label).Keeps P :=
  ⟨helement, fun _ => hP.construct hlabel⟩

theorem keeps_program : (Rule.grammar .program).Keeps P :=
  keeps_many hP ⟨⟨⟨⟨trivial, trivial⟩, trivial⟩, keeps_pick hP rfl⟩, trivial⟩ rfl

theorem keeps_structDecl : (Rule.grammar .structDecl).Keeps P := by
  have hfields : (Grammar.block "\x7b" "\x7d" (many (.rule structField) .structFields)
      .structFields).Keeps P :=
    ⟨keeps_many hP trivial rfl, fun _ ht => hP.construct rfl (List.forall_mem_singleton.mpr ht)⟩
  refine keeps_seq ⟨trivial, trivial, hfields, trivial, trivial⟩ fun trees h => ?_
  exact hP.construct rfl <| List.forall_mem_cons.mpr ⟨hP.pick h 1,
    List.forall_mem_singleton.mpr <| hP.pick (fun _ => hP.of_mem_children (hP.pick h 2)) 0⟩

theorem keeps_parameters : (Rule.grammar .parameters).Keeps P :=
  ⟨⟨trivial, fun _ _ => hP.construct rfl nofun⟩, trivial, fun _ => hP.construct rfl⟩

theorem keeps_ifChain : (Rule.grammar .ifChain).Keeps P := by
  have hbranches : (many (.rule elseIfBranch) (.word "Else if operators")).Keeps P :=
    keeps_many hP trivial (by decide +kernel)
  refine keeps_seq ⟨keeps_seq ⟨trivial, hbranches, trivial⟩ fun _ h => ?_,
    ⟨trivial, trivial⟩, trivial⟩ fun _ => hP.withElse
  exact hP.cons_children rfl (hP.pick h 0) (hP.pick h 1)

theorem keeps_switchCase : (Rule.grammar .switchCase).Keeps P :=
  keeps_seq ⟨⟨keeps_pick hP rfl, trivial⟩, trivial, trivial, trivial⟩
    fun _ => hP.nodeOf rfl

theorem keeps_switchOn : (Rule.grammar .switchOn).Keeps P :=
  ⟨⟨trivial, trivial, trivial, trivial, trivial, keeps_many hP trivial rfl, trivial, trivial⟩,
    fun _ _ => hP.switchTree⟩

theorem keeps_keywordInstruction : (Rule.grammar .keywordInstruction).Keeps P :=
  ⟨⟨⟨trivial, trivial⟩, keeps_nodeOf hP rfl rfl⟩, keeps_nodeOf hP rfl rfl⟩

theorem keeps_arrayDim : (Rule.grammar .arrayDim).Keeps P :=
  keeps_seq (keepsAll_of_isSimple rfl) fun _ => hP.dimension

theorem keeps_variableCreation : (Rule.grammar .variableCreation).Keeps P :=
  ⟨keeps_seq (keepsAll_of_isSimple rfl) fun _ h => hP.withInitializer (hP.pick h 0) (hP.pick h 1),
   keeps_seq (keepsAll_of_isSimple rfl) fun _ h => hP.group fun t ht => h t (List.mem_of_mem_drop ht),
   fun _ _ => hP.addDeclarator⟩

theorem keeps_variableDecl : (Rule.grammar .variableDecl).Keeps P :=
  ⟨keeps_nodeOf hP rfl rfl, trivial, fun _ _ => hP.children_concat rfl⟩

theorem keeps_structType : (Rule.grammar .structType).Keeps P :=
  keeps_seq (keepsAll_of_isSimple rfl) fun _ _ => hP.typeName _

theorem keeps_typeName : (Rule.grammar .typeName).Keeps P :=
  ⟨.of_isSimple rfl, .of_isSimple rfl, fun _ _ _ _ => hP.typeName _⟩

theorem keeps_expression : (Rule.grammar .expression).Keeps P :=
  ⟨⟨trivial, trivial⟩, ⟨trivial, fun _ => hP.construct rfl⟩,
    fun _ ht => hP.construct rfl (List.forall_mem_singleton.mpr ht)⟩

end

end MiniC
