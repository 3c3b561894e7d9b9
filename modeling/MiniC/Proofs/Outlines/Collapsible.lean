import MiniC.Proofs.Precedence

set_option autoImplicit false

/-! # Trees that can be collapsed

An outline may show the first child of a wrapper in the place of the wrapper. Nothing gets lost by
that if there is no other child, and if the first one is not a piece that is left out. The rules for
parentheses and for lines make wrappers of this kind, since no expression and no instruction is left
out; no other rule makes a wrapper. -/

namespace MiniC

open Grammar Rule

/-! ## Grammars that leave nothing out -/

namespace Grammar

variable {ρ : Type} {rules : ρ → Except ParseFailure (Grammar ρ)} {tokens : Array Token}
  {M : Grammar ρ → Nat → Tree → Nat → Prop}

/-- Whether a grammar matches no piece that is left out, if some rules do not. -/
def Fills (full : ρ → Prop) : Grammar ρ → Prop
  | .empty => False
  | .rule name => full name
  | .choice first second => first.Fills full ∧ second.Fills full
  | .sequence _ merge => ∀ trees tree, merge trees = .ok tree → tree ≠ .empty
  | .fold first _ merge _ => first.Fills full ∧
      ∀ tree piece, tree ≠ .empty → merge tree piece ≠ .empty
  | .ahead _ _ merge => ∀ tree, merge tree ≠ .empty
  | .token _ | .block .. | .items .. | .prefixed .. | .suffixed .. => True

theorem builds_of_fills {full : ρ → Prop} (hunfold : Unfolds rules tokens M)
    (hrule : ∀ name, full name → Builds M (.rule name) (· ≠ .empty)) {g : Grammar ρ}
    (h : g.Fills full) : Builds M g (· ≠ .empty) := by
  induction g using Fills.induct with
  | case1 => cases h
  | case2 name => exact hrule name h
  | case3 first second ihfirst ihsecond => exact (ihfirst h.1).choice hunfold (ihsecond h.2)
  | case4 steps merge =>
    intro tree htree
    obtain ⟨trees, hmerge, -, -⟩ := exists_of_matched_sequence hunfold htree
    exact h trees tree hmerge
  | case5 first other merge canBeAlone ihfirst =>
    exact (ihfirst h.1).fold hunfold fun tree piece htree _ => h.2 tree piece htree
  | case6 inner text merge =>
    rintro tree ⟨place, next, hmatch⟩
    cases hunfold _ _ _ _ hmatch with
    | ahead _ _ => exact h _
  | case7 => exact builds_token hunfold fun _ _ _ => nofun
  | case8 | case9 | case10 | case11 =>
    rintro tree ⟨place, next, hmatch⟩
    cases hunfold _ _ _ _ hmatch
    nofun

end Grammar

/-! ## Wrappers with one child -/

namespace Tree

/-- Whether each wrapper in a tree has one child, which is not left out, and no other node in it has
the name of a wrapper. -/
inductive Collapsible : Tree → Prop
  | empty : Collapsible .empty
  | leaf (token : Token) (slot : Nat) : Collapsible (.leaf token slot)
  | typeName (words : List Token) (slot : Nat) : Collapsible (.typeName words slot)
  | group {children : List Tree} (hchildren : ∀ t ∈ children, Collapsible t) :
    Collapsible (.group children)
  | shown {label : Label} {children : List Tree} (hlabel : label.isShown)
    (hchildren : ∀ t ∈ children, Collapsible t) : Collapsible (.node label children)
  | wrapper {label : Label} {child : Tree} (hlabel : label.isWrapper) (hchild : Collapsible child)
    (hne : child ≠ .empty) : Collapsible (.node label [child])

theorem Collapsible.of_mem_children {t child : Tree} (h : t.Collapsible)
    (hchild : child ∈ t.children) : child.Collapsible := by
  cases h with
  | empty | leaf | typeName => cases hchild
  | group hchildren | shown _ hchildren => exact hchildren child hchild
  | wrapper _ honly _ => exact List.mem_singleton.mp hchild ▸ honly

theorem Collapsible.composes : Tree.Composes Tree.Collapsible where
  empty := .empty
  leaf token := .leaf token 0
  typeName words := .typeName words 0
  group := .group
  construct hlabel := .shown (Label.isShown_of_isConstruct hlabel)
  of_mem_children := .of_mem_children

theorem Collapsible.operand {label : Label} {t : Tree} (hlabel : label.isShown)
    (h : t.Collapsible) : Collapsible (.node label [t]) :=
  .shown hlabel (List.forall_mem_singleton.mpr h)

theorem Collapsible.operands {label : Label} {left right : Tree} (hlabel : label.isShown)
    (hleft : left.Collapsible) (hright : right.Collapsible) :
    Collapsible (.node label [left, right]) :=
  .shown hlabel (List.forall_mem_cons.mpr ⟨hleft, List.forall_mem_singleton.mpr hright⟩)

theorem Collapsible.nodeOf {label : Label} {places : List Nat} {trees : List Tree}
    (hlabel : label.isShown) (h : ∀ t ∈ trees, t.Collapsible) :
    (Rule.nodeOf label places trees).Collapsible :=
  .shown hlabel <| List.forall_mem_map.mpr fun place _ => composes.pick h place

theorem numberFrom_ne_empty {t : Tree} (h : t ≠ .empty) (n : Nat) :
    (t.numberFrom n).1 ≠ .empty := by
  cases t with
  | empty => exact absurd rfl h
  | _ => nofun

theorem Collapsible.numberFrom {t : Tree} (h : t.Collapsible) (n : Nat) :
    (t.numberFrom n).1.Collapsible := by
  induction h generalizing n with
  | empty => exact .empty
  | leaf token => exact .leaf token n
  | typeName words => exact .typeName words n
  | group hchildren => exact .group hchildren
  | shown hlabel _ ih => exact .shown hlabel (forall_mem_numberAllFrom ih n)
  | wrapper hlabel _ hne ih => exact .wrapper hlabel (ih n) (numberFrom_ne_empty hne n)

end Tree

/-! ## The rules -/

theorem keeps_nodeOf_of_isShown {steps : List (Step G)} {label : Label} {places : List Nat}
    (hsteps : steps.all (·.grammar.isSimple) = true) (hlabel : label.isShown) :
    (seq steps (nodeOf label places)).Keeps Tree.Collapsible :=
  keeps_seq (keepsAll_of_isSimple hsteps) fun _ => .nodeOf hlabel

/-- Whether the trees of a rule are needed for an expression or an instruction. -/
def Rule.isFull : Rule → Bool
  | .instruction | .variableCreation | .variableDecl | .keywordInstruction | .expression
  | .assignment | .ternary | .flat | .shift | .additive | .multiplicative | .indirection | .unary
  | .postfixed | .parens | .rvalue | .lvalue => true
  | _ => false

/-- Matches where all rules make trees that can be collapsed, and leave out no expression and no
instruction. -/
structure CollapsibleMatches (tokens : Array Token) (M : G → Nat → Tree → Nat → Prop) : Prop where
  unfolds : Unfolds (fun name => .ok (Rule.grammar name)) tokens M
  tops (name : Rule) : Builds M (.rule name) name.Tops
  rule (name : Rule) : Builds M (.rule name) Tree.Collapsible
  full (name : Rule) (h : name.isFull) : Builds M (.rule name) (· ≠ .empty)

namespace CollapsibleMatches

variable {tokens : Array Token} {M : G → Nat → Tree → Nat → Prop}
  (h : CollapsibleMatches tokens M)

include h

/-! ### No expression and no instruction is left out -/

theorem full_assignment : Builds M (Rule.grammar .assignment) (· ≠ .empty) := by
  refine .made h.unfolds fun trees htrees => ?_
  obtain ⟨operator, -, hleaf⟩ := builds_punctOf h.unfolds _ (htrees 1 rfl)
  rw [hleaf]
  nofun

theorem full_variableCreation : Builds M (Rule.grammar .variableCreation) (· ≠ .empty) := by
  refine .fold h.unfolds (.made h.unfolds fun trees htrees => ?_) fun tree piece htree _ => ?_
  · have hdecl := h.full .variableDecl rfl _ (htrees 0 rfl)
    rw [withInitializer.eq_def]
    split
    · exact hdecl
    · simp
  · fun_cases addDeclarator tree piece
    · simp
    · exact htree

theorem full_level {operand : Rule} {operators : List String} (hoperand : operand.isFull) :
    Builds M (level operand operators) (· ≠ .empty) :=
  .level h.unfolds (h.full operand hoperand) (fun _ => id) fun _ _ _ _ _ _ => nofun

theorem full_lvalue : Builds M (Rule.grammar .lvalue) (· ≠ .empty) := by
  refine builds_of_fills h.unfolds h.full ⟨⟨⟨trivial, rfl⟩, fun left access hleft => ?_⟩, trivial⟩
  fun_cases applyAccess left access
  · nofun
  · exact hleft

theorem full_grammar (name : Rule) (hname : name.isFull) :
    Builds M (Rule.grammar name) (· ≠ .empty) := by
  have hfills {g : G} (hg : g.Fills (·.isFull)) : Builds M g (· ≠ .empty) :=
    builds_of_fills h.unfolds h.full hg
  have hmade {steps : List (Step G)} {label : Label} {children : List Tree → List Tree} :
      (seq steps fun trees => .node label (children trees)).Fills (·.isFull) := by
    rintro trees tree ⟨⟩
    nofun
  cases name with
  | instruction => exact hfills ⟨⟨⟨rfl, rfl⟩, rfl⟩, rfl⟩
  | variableCreation => exact h.full_variableCreation
  | variableDecl => exact hfills ⟨hmade, fun _ _ _ => nofun⟩
  | keywordInstruction => exact hfills ⟨⟨⟨trivial, trivial⟩, hmade⟩, hmade⟩
  | expression => exact hfills ⟨⟨rfl, rfl⟩, trivial⟩
  | assignment => exact h.full_assignment
  | ternary => exact hfills ⟨hmade, rfl⟩
  | flat | shift | additive | multiplicative => exact h.full_level rfl
  | indirection | parens => exact hfills trivial
  | unary =>
    exact hfills ⟨⟨⟨⟨⟨⟨⟨⟨⟨⟨trivial, trivial⟩, trivial⟩, trivial⟩, rfl⟩, trivial⟩, trivial⟩, trivial⟩,
      hmade⟩, hmade⟩, rfl⟩
  | postfixed => exact hfills ⟨⟨⟨trivial, trivial⟩, hmade⟩, rfl⟩
  | rvalue => exact hfills ⟨⟨rfl, rfl⟩, trivial⟩
  | lvalue => exact h.full_lvalue
  | _ => cases hname

/-! ### Wrappers have one child -/

theorem builds_keeps {g : G} (hkeeps : g.Keeps Tree.Collapsible) : Builds M g Tree.Collapsible :=
  builds_of_keeps h.unfolds (fun t => .leaf t 0) .empty h.rule g hkeeps

theorem builds_line : Builds M (Rule.grammar .line) Tree.Collapsible := by
  refine .made h.unfolds fun trees htrees => ?_
  have hitems : Builds M
      (.items (.rule .instruction) (.word "Instruction list") (some ",") true)
      fun tree => ∀ t ∈ tree.children, t.Collapsible ∧ t ≠ .empty :=
    Builds.items h.unfolds (P := fun t => t.Collapsible ∧ t ≠ .empty)
      (fun t ht => ⟨h.rule .instruction t ht, h.full .instruction rfl t ht⟩) fun _ hall _ => hall
  have hall : ∀ t ∈ (pick 0 trees).children, t.Collapsible ∧ t ≠ .empty := hitems _ (htrees 0 rfl)
  rw [lineOf]
  match hchildren : (pick 0 trees).children with
  | [] => exact .shown rfl nofun
  | [instr] =>
    rw [hchildren, List.forall_mem_singleton] at hall
    exact .wrapper rfl hall.1 hall.2
  | first :: second :: rest =>
    rw [hchildren] at hall
    exact .shown rfl fun t ht => (hall t ht).1

theorem builds_assignment : Builds M (Rule.grammar .assignment) Tree.Collapsible := by
  refine .made h.unfolds fun trees htrees => ?_
  have hall : ∀ op ∈ assignmentOperators, (Label.word op).isShown := by decide +kernel
  have hleft : Builds M (.choice (.rule .indirection) (.rule .lvalue)) Tree.Collapsible :=
    (h.rule .indirection).choice h.unfolds (h.rule .lvalue)
  obtain ⟨operator, hop, hleaf⟩ := builds_punctOf h.unfolds _ (htrees 1 rfl)
  rw [hleaf]
  exact .operands (hall _ hop) (hleft _ (htrees 0 rfl)) (h.rule .expression _ (htrees 2 rfl))

theorem builds_level {operand : Rule} {p : Precedence} (hp : p ∈ Precedence.levels) :
    Builds M (level operand p.operators) Tree.Collapsible := by
  have hall : ∀ p ∈ Precedence.levels, ∀ op ∈ p.operators, (Label.word op).isShown := by
    decide +kernel
  exact .level h.unfolds (h.rule operand) (fun _ => id)
    fun op hop _ _ => .operands (hall p hp op hop)

theorem builds_parens : Builds M (Rule.grammar .parens) Tree.Collapsible := by
  have hinner : Builds M (.rule .expression) fun t => t.Collapsible ∧ t ≠ .empty :=
    fun t ht => ⟨h.rule .expression t ht, h.full .expression rfl t ht⟩
  exact hinner.block h.unfolds fun t ht => .wrapper rfl ht.1 ht.2

theorem builds_lvalue : Builds M (Rule.grammar .lvalue) Tree.Collapsible := by
  have hname : Builds M identifier Tree.Collapsible :=
    builds_token h.unfolds fun t _ _ => .leaf t 0
  refine .choice h.unfolds (.fold h.unfolds (hname.choice h.unfolds (h.rule .parens)) ?_) hname
  intro left piece hleft hpiece
  have haccess := h.rule .access piece hpiece
  have hshown : ∀ label ∈ Tree.accessLabels, label.isShown := by decide
  obtain ⟨label, hlabel, part, rfl⟩ := h.tops .access piece hpiece
  exact .operands (hshown label hlabel) hleft (haccess.of_mem_children List.mem_cons_self)

theorem builds_unary : Builds M (Rule.grammar .unary) Tree.Collapsible := by
  have hprefixed {operator : String} {operand : Rule} {label : Label} (hlabel : label.isShown) :
      Builds M (.prefixed operator (.rule operand) label) Tree.Collapsible :=
    (h.rule operand).prefixed h.unfolds fun _ => .operand hlabel
  exact .oneOf h.unfolds (hprefixed rfl)
    ⟨hprefixed rfl, hprefixed rfl, hprefixed rfl, h.rule .indirection, hprefixed rfl, hprefixed rfl,
     hprefixed rfl, h.builds_keeps (keeps_nodeOf_of_isShown rfl rfl),
     h.builds_keeps (keeps_nodeOf_of_isShown rfl rfl), h.rule .postfixed⟩

theorem builds_postfixed : Builds M (Rule.grammar .postfixed) Tree.Collapsible := by
  have hsuffixed {operator : String} {label : Label} (hlabel : label.isShown) :
      Builds M (.suffixed (.rule .lvalue) operator label) Tree.Collapsible :=
    (h.rule .lvalue).suffixed h.unfolds fun _ => .operand hlabel
  have hcall : (seq [(Grammar.rule rvalue).step, (punct "(").step,
      (Grammar.items (.rule .expression) (.word "Function call args") (some ",") true).step,
      (punct ")").orFail "Invalid function call: ')' is missed."]
      fun trees => .node .call (pick 0 trees :: (pick 2 trees).children)).Keeps Tree.Collapsible :=
    keeps_seq ⟨trivial, trivial, ⟨trivial, fun _ => .shown (by decide +kernel)⟩, trivial, trivial⟩
      fun _ htrees => Tree.Collapsible.composes.cons_children rfl
        (Tree.Collapsible.composes.pick htrees 0) (Tree.Collapsible.composes.pick htrees 2)
  exact .oneOf h.unfolds (hsuffixed rfl) ⟨hsuffixed rfl, h.builds_keeps hcall, h.rule .rvalue⟩

theorem builds_grammar (name : Rule) : Builds M (Rule.grammar name) Tree.Collapsible := by
  have hcomposes : Tree.Composes Tree.Collapsible := Tree.Collapsible.composes
  cases name with
  | program => exact h.builds_keeps (keeps_program hcomposes)
  | structField | scope => exact h.builds_keeps (keeps_pick hcomposes rfl)
  | structDecl => exact h.builds_keeps (keeps_structDecl hcomposes)
  | parameters => exact h.builds_keeps (keeps_parameters hcomposes)
  | functionDecl | functionPrototype | ifBranch | elseIfBranch | elseBranch | forLoop | doWhileLoop
  | whileLoop | jumpLabel => exact h.builds_keeps (keeps_nodeOf hcomposes rfl rfl)
  | body | statement | instruction | rvalue => exact h.builds_keeps (.of_isSimple rfl)
  | ifChain => exact h.builds_keeps (keeps_ifChain hcomposes)
  | switchCase => exact h.builds_keeps (keeps_switchCase hcomposes)
  | switchOn => exact h.builds_keeps (keeps_switchOn hcomposes)
  | lines => exact h.builds_keeps (keeps_many hcomposes (.of_isSimple rfl) rfl)
  | line => exact h.builds_line
  | keywordInstruction => exact h.builds_keeps (keeps_keywordInstruction hcomposes)
  | initializer => exact h.builds_keeps ⟨keeps_pick hcomposes rfl, trivial⟩
  | pointerMarks | arrayDims =>
    exact h.builds_keeps (keeps_many hcomposes (.of_isSimple rfl) (by decide +kernel))
  | arrayDim => exact h.builds_keeps (keeps_arrayDim hcomposes)
  | variableCreation => exact h.builds_keeps (keeps_variableCreation hcomposes)
  | variableDecl => exact h.builds_keeps (keeps_variableDecl hcomposes)
  | structType => exact h.builds_keeps (keeps_structType hcomposes)
  | typeName => exact h.builds_keeps (keeps_typeName hcomposes)
  | expression => exact h.builds_keeps (keeps_expression hcomposes)
  | assignment => exact h.builds_assignment
  | ternary => exact h.builds_keeps ⟨keeps_nodeOf_of_isShown rfl rfl, trivial⟩
  | flat => exact h.builds_level (p := .flat) (by decide)
  | shift => exact h.builds_level (p := .shift) (by decide)
  | additive => exact h.builds_level (p := .additive) (by decide)
  | multiplicative => exact h.builds_level (p := .multiplicative) (by decide)
  | indirection => exact (h.rule .unary).prefixed h.unfolds fun _ => .operand rfl
  | unary => exact h.builds_unary
  | postfixed => exact h.builds_postfixed
  | parens => exact h.builds_parens
  | access =>
    exact h.builds_keeps ⟨⟨keeps_nodeOf_of_isShown rfl rfl, keeps_nodeOf_of_isShown rfl rfl⟩,
      keeps_nodeOf_of_isShown rfl rfl⟩
  | lvalue => exact h.builds_lvalue

end CollapsibleMatches

theorem collapsible_of_plain {tokens : Array Token} {fuel place next : Nat} {name : Rule}
    {tree : Tree} (h : plain (fun name => .ok (Rule.grammar name)) tokens fuel (.rule name) place
      = .ok (some (tree, next))) : tree.Collapsible ∧ (name.isFull → tree ≠ .empty) := by
  induction fuel using Nat.strongRecOn generalizing name place tree next with
  | ind fuel ih =>
    have hmatches : CollapsibleMatches tokens
        (Within (fun name => .ok (Rule.grammar name)) tokens fuel) := {
      unfolds := Within.unfolds fuel
      tops := by
        rintro name tree ⟨place, next, less, -, hmatch⟩
        exact (ordered_of_plain hmatch).2
      rule := by
        rintro name tree ⟨place, next, less, hless, hmatch⟩
        exact (ih less hless hmatch).1
      full := by
        rintro name hname tree ⟨place, next, less, hless, hmatch⟩
        exact (ih less hless hmatch).2 hname }
    cases matchesBy_of_plain h with
    | rule hbody htree =>
      cases hbody
      exact ⟨hmatches.builds_grammar name tree ⟨_, _, htree⟩,
        fun hname => hmatches.full_grammar name hname tree ⟨_, _, htree⟩⟩

/-- Each wrapper in the tree of a parse has one child, which is not left out. -/
theorem collapsible_of_parseTree {tokens : List Token} {tree : Tree}
    (h : parseTree tokens = .ok tree) : tree.Collapsible := by
  obtain ⟨matched, rfl, hmatched⟩ := exists_of_parseTree h
  exact (collapsible_of_plain hmatched).1.numberFrom 0

end MiniC
