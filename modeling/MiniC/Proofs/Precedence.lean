import MiniC.Proofs.Parsing.Memo
import MiniC.Proofs.Parsing.Merging

set_option autoImplicit false

/-! # Precedence and associativity

The trees of a parse are in the order of precedence. Most rules only put trees together that are in
order already. The rules of expressions also bound what is at the top of their trees, each level by
its own operators, so that the level above can take them for operands. -/

namespace MiniC

open Grammar Rule

/-! ## Ordered trees are put together -/

theorem Tree.Ordered.composes : Tree.Composes Tree.Ordered where
  empty := .empty
  leaf token := .leaf token 0
  typeName words := .typeName words 0
  group := .group
  construct hlabel := .construct (Label.isOperator_of_isConstruct hlabel)
  of_mem_children := .of_mem_children

theorem Tree.Ordered.lineOf {trees : List Tree} (h : ∀ t ∈ trees, t.Ordered) :
    (Rule.lineOf trees).Ordered := by
  refine .construct ?_ fun _ => (composes.pick h 0).of_mem_children
  split <;> rfl

theorem keeps_line : (Rule.grammar .line).Keeps Tree.Ordered :=
  keeps_seq ⟨⟨trivial, fun _ => .construct (by decide +kernel)⟩, trivial, trivial⟩
    fun _ => .lineOf

/-! ## The rules -/

/-- What is at the top of the trees of a rule. -/
def Rule.Tops : Rule → Tree → Prop
  | .ternary, t => t.precedence ≤ .conditional
  | .flat, t => t.precedence ≤ .flat
  | .shift, t => t.precedence ≤ .shift
  | .additive, t => t.precedence ≤ .additive
  | .multiplicative, t => t.precedence ≤ .multiplicative
  | .unary, t | .postfixed, t | .rvalue, t => t.precedence = .operand
  | .indirection, t => ∃ e, t = .node .indirection [e]
  | .parens, t => ∃ e, t = .node .parens [e]
  | .access, t => ∃ label ∈ Tree.accessLabels, ∃ part, t = .node label [part]
  | .lvalue, t => t.IsTarget
  | _, _ => True

/-- Matches where all rules make ordered trees, with what has to be at the top. -/
structure OrderedMatches (tokens : Array Token) (M : G → Nat → Tree → Nat → Prop) : Prop where
  unfolds : Unfolds (fun name => .ok (Rule.grammar name)) tokens M
  rule (name : Rule) : Builds M (.rule name) fun t => t.Ordered ∧ name.Tops t

namespace OrderedMatches

variable {tokens : Array Token} {M : G → Nat → Tree → Nat → Prop} (h : OrderedMatches tokens M)

include h

theorem builds_keeps {g : G} (hkeeps : g.Keeps Tree.Ordered) : Builds M g Tree.Ordered :=
  builds_of_keeps h.unfolds (fun t => .leaf t 0) .empty
    (fun name => (h.rule name).imp fun _ => And.left) g hkeeps

theorem builds_level {operand : Rule} {p : Precedence} (hp : p ∈ Precedence.levels)
    (hoperand : Builds M (.rule operand) fun t => t.Ordered ∧ t.precedence < p) :
    Builds M (level operand p.operators) fun t => t.Ordered ∧ t.precedence ≤ p := by
  refine .level h.unfolds hoperand (fun t ht => ⟨ht.1, ht.2.le⟩) ?_
  intro op hop left right hleft hright
  have hlevel : Precedence.ofOperator op = p := Precedence.ofOperator_of_mem hop
  refine ⟨.node ⟨fun _ => ⟨left, right, rfl, hlevel ▸ hleft.2, hlevel ▸ hright.2⟩,
    fun hassign => ?_⟩ ?_, hlevel.le⟩
  · exact absurd (hlevel.symm.trans hassign ▸ hp) Precedence.assignment_not_mem_levels
  · exact List.forall_mem_cons.mpr ⟨hleft.1, List.forall_mem_singleton.mpr hright.1⟩

theorem builds_assignment : Builds M (Rule.grammar .assignment) Tree.Ordered := by
  refine .made h.unfolds fun trees htrees => ?_
  have htarget : Builds M (.choice (.rule .indirection) (.rule .lvalue))
      fun t => t.Ordered ∧ t.IsTarget :=
    .choice h.unfolds
      ((h.rule .indirection).imp fun _ ht =>
        ⟨ht.1, by obtain ⟨_, e, rfl⟩ := ht; exact .indirection e⟩)
      (h.rule .lvalue)
  obtain ⟨operator, hop, hleaf⟩ := builds_punctOf h.unfolds _ (htrees 1 rfl)
  obtain ⟨hordered, htarget⟩ := htarget _ (htrees 0 rfl)
  have hlevel : Precedence.ofOperator operator.text = .assignment :=
    Precedence.ofOperator_of_mem hop
  rw [hleaf]
  refine .node ⟨fun hp => absurd (hlevel ▸ hp) Precedence.assignment_not_mem_levels,
    fun _ => ⟨_, _, rfl, htarget⟩⟩ ?_
  exact List.forall_mem_cons.mpr
    ⟨hordered, List.forall_mem_singleton.mpr (h.rule .expression _ (htrees 2 rfl)).1⟩

theorem builds_ternary : Builds M (Rule.grammar .ternary)
    fun t => t.Ordered ∧ t.precedence ≤ .conditional := by
  refine .choice h.unfolds (.made h.unfolds fun trees htrees => ⟨.node ?_ ?_, le_rfl⟩)
    ((h.rule .flat).imp fun t ht => ⟨ht.1, ht.2.trans (by decide)⟩)
  · exact ⟨_, _, _, rfl, (h.rule .flat _ (htrees 0 rfl)).2, (h.rule .ternary _ (htrees 4 rfl)).2⟩
  · exact List.forall_mem_cons.mpr ⟨(h.rule .flat _ (htrees 0 rfl)).1,
      List.forall_mem_cons.mpr ⟨(h.rule .expression _ (htrees 2 rfl)).1,
        List.forall_mem_singleton.mpr (h.rule .ternary _ (htrees 4 rfl)).1⟩⟩

theorem builds_operand {operand : Rule} (hoperand : ∀ t, operand.Tops t → t.precedence = .operand) :
    Builds M (.rule operand) fun t => t.Ordered ∧ t.precedence = .operand :=
  (h.rule operand).imp fun t ht => ⟨ht.1, hoperand t ht.2⟩

theorem builds_prefixed {operator : String} {operand : Rule} {label : Label}
    (hoperand : ∀ t, operand.Tops t → t.precedence = .operand) (hlabel : label ∈ Tree.unaryLabels) :
    Builds M (.prefixed operator (.rule operand) label)
      fun t => t.Ordered ∧ t.precedence = .operand :=
  (h.builds_operand hoperand).prefixed h.unfolds fun _ ht =>
    have hfits := Tree.fits_unary hlabel ht.2
    ⟨.node hfits.1 (List.forall_mem_singleton.mpr ht.1), hfits.2⟩

theorem builds_suffixed {operator : String} {label : Label} (hlabel : label ∈ Tree.unaryLabels) :
    Builds M (.suffixed (.rule .lvalue) operator label)
      fun t => t.Ordered ∧ t.precedence = .operand :=
  (h.rule .lvalue).suffixed h.unfolds fun _ ht =>
    have hfits := Tree.fits_unary hlabel ht.2.precedence_eq
    ⟨.node hfits.1 (List.forall_mem_singleton.mpr ht.1), hfits.2⟩

theorem builds_indirection : Builds M (Rule.grammar .indirection)
    fun t => t.Ordered ∧ ∃ e, t = .node .indirection [e] :=
  (h.rule .unary).prefixed h.unfolds fun t ht =>
    ⟨.node (Tree.fits_unary (by decide) ht.2).1 (List.forall_mem_singleton.mpr ht.1), t, rfl⟩

theorem builds_cast : Builds M
    (seq [(punct "(").step, (Grammar.rule typeName).step, (punct ")").step,
        (Grammar.rule unary).step] (nodeOf .typeCast [1, 3]))
    fun t => t.Ordered ∧ t.precedence = .operand :=
  .made h.unfolds fun _ htrees =>
    have he := h.rule .unary _ (htrees 3 rfl)
    ⟨.node ⟨_, _, rfl, he.2⟩ <| List.forall_mem_cons.mpr
      ⟨(h.rule .typeName _ (htrees 1 rfl)).1, List.forall_mem_singleton.mpr he.1⟩, rfl⟩

theorem builds_unary : Builds M (Rule.grammar .unary)
    fun t => t.Ordered ∧ t.precedence = .operand :=
  .oneOf h.unfolds (h.builds_prefixed (fun _ => Tree.IsTarget.precedence_eq) (by decide))
    ⟨h.builds_prefixed (fun _ => Tree.IsTarget.precedence_eq) (by decide),
     h.builds_prefixed (fun _ => id) (by decide),
     h.builds_prefixed (fun _ => id) (by decide),
     h.builds_operand fun t ht => by obtain ⟨e, rfl⟩ := ht; rfl,
     h.builds_prefixed (fun _ => id) (by decide),
     h.builds_prefixed (fun _ => id) (by decide),
     h.builds_prefixed (fun _ => id) (by decide),
     .made h.unfolds fun _ htrees =>
      ⟨.construct rfl <| List.forall_mem_singleton.mpr (h.rule .typeName _ (htrees 2 rfl)).1, rfl⟩,
     h.builds_cast, h.rule .postfixed⟩

theorem builds_call : Builds M
    (seq [(Grammar.rule rvalue).step, (punct "(").step,
        (Grammar.items (.rule .expression) (.word "Function call args") (some ",") true).step,
        (punct ")").orFail "Invalid function call: ')' is missed."]
      fun trees => .node .call (pick 0 trees :: (pick 2 trees).children))
    fun t => t.Ordered ∧ t.precedence = .operand := by
  refine .made h.unfolds fun _ htrees => ⟨?_, rfl⟩
  have hargs : (Grammar.items (.rule expression) (.word "Function call args") (some ",")
      true).Keeps Tree.Ordered := ⟨trivial, fun _ => .construct (by decide +kernel)⟩
  exact Tree.Ordered.composes.cons_children rfl (h.rule .rvalue _ (htrees 0 rfl)).1
    (h.builds_keeps hargs _ (htrees 2 rfl))

theorem builds_postfixed : Builds M (Rule.grammar .postfixed)
    fun t => t.Ordered ∧ t.precedence = .operand :=
  .oneOf h.unfolds (h.builds_suffixed (by decide))
    ⟨h.builds_suffixed (by decide), h.builds_call, h.rule .rvalue⟩

theorem builds_parens : Builds M (Rule.grammar .parens)
    fun t => t.Ordered ∧ ∃ e, t = .node .parens [e] :=
  (h.rule .expression).block h.unfolds fun t ht =>
    ⟨.construct rfl (List.forall_mem_singleton.mpr ht.1), t, rfl⟩

theorem builds_rvalue : Builds M (Rule.grammar .rvalue)
    fun t => t.Ordered ∧ t.precedence = .operand :=
  .oneOf h.unfolds (h.builds_operand fun _ => Tree.IsTarget.precedence_eq)
    ⟨h.builds_operand fun t ht => by obtain ⟨e, rfl⟩ := ht; rfl,
     builds_token h.unfolds fun t _ _ => ⟨.leaf t 0, rfl⟩⟩

theorem builds_access : Builds M (Rule.grammar .access)
    fun t => t.Ordered ∧ ∃ label ∈ Tree.accessLabels, ∃ part, t = .node label [part] := by
  have hname : Builds M identifier Tree.Ordered :=
    builds_token h.unfolds fun t _ _ => .leaf t 0
  exact .oneOf h.unfolds
    (.made h.unfolds fun _ htrees => ⟨.construct rfl <| List.forall_mem_singleton.mpr
      (h.rule .expression _ (htrees 1 rfl)).1, .indexer, by decide, _, rfl⟩)
    ⟨.made h.unfolds fun _ htrees => ⟨.construct rfl <| List.forall_mem_singleton.mpr
      (hname _ (htrees 1 rfl)), .member, by decide, _, rfl⟩,
     .made h.unfolds fun _ htrees => ⟨.construct rfl <| List.forall_mem_singleton.mpr
      (hname _ (htrees 1 rfl)), .arrow, by decide, _, rfl⟩⟩

theorem builds_lvalue : Builds M (Rule.grammar .lvalue) fun t => t.Ordered ∧ t.IsTarget := by
  refine .choice h.unfolds ?_ (builds_token h.unfolds fun t _ ht => ⟨.leaf t 0, .name ht⟩)
  have hroot : Builds M (.choice identifier (.rule .parens)) fun t => t.Ordered ∧ t.IsChain :=
    .choice h.unfolds (builds_token h.unfolds fun t _ ht => ⟨.leaf t 0, .name ht⟩)
      ((h.rule .parens).imp fun t ht => ⟨ht.1, by obtain ⟨e, rfl⟩ := ht.2; exact .parens e⟩)
  refine .fold_merged h.unfolds hroot fun left piece hleft hpiece => ?_
  obtain ⟨hordered, label, hlabel, part, rfl⟩ := h.rule .access piece hpiece
  have hpart : part.Ordered := hordered.of_mem_children List.mem_cons_self
  have hnode : Tree.Ordered (.node label [left, part]) := .construct
    (Tree.isOperator_of_mem_accessLabels hlabel)
    (List.forall_mem_cons.mpr ⟨hleft.1, List.forall_mem_singleton.mpr hpart⟩)
  exact ⟨⟨hnode, .access hlabel hleft.2⟩, hnode, .access hlabel hleft.2⟩

/-! ## All rules -/

theorem builds_kept {g : G} {Q : Tree → Prop} (hkeeps : g.Keeps Tree.Ordered) (hQ : ∀ t, Q t) :
    Builds M g fun t => t.Ordered ∧ Q t :=
  (h.builds_keeps hkeeps).imp fun t ht => ⟨ht, hQ t⟩

theorem builds_grammar (name : Rule) :
    Builds M (Rule.grammar name) fun t => t.Ordered ∧ name.Tops t := by
  have hordered : Tree.Composes Tree.Ordered := Tree.Ordered.composes
  have htrue (t : Tree) : True := trivial
  -- A rule that takes its trees as they are, or puts them under a label that is no operator, keeps
  -- the order; what is left are the rules for operators.
  cases name with
  | program => exact h.builds_kept (keeps_program hordered) htrue
  | structField | scope => exact h.builds_kept (keeps_pick hordered rfl) htrue
  | structDecl => exact h.builds_kept (keeps_structDecl hordered) htrue
  | parameters => exact h.builds_kept (keeps_parameters hordered) htrue
  | functionDecl | functionPrototype | ifBranch | elseIfBranch | elseBranch | forLoop | doWhileLoop
  | whileLoop | jumpLabel => exact h.builds_kept (keeps_nodeOf hordered rfl rfl) htrue
  | body | statement | instruction => exact h.builds_kept (.of_isSimple rfl) htrue
  | ifChain => exact h.builds_kept (keeps_ifChain hordered) htrue
  | switchCase => exact h.builds_kept (keeps_switchCase hordered) htrue
  | switchOn => exact h.builds_kept (keeps_switchOn hordered) htrue
  | lines => exact h.builds_kept (keeps_many hordered (.of_isSimple rfl) rfl) htrue
  | line => exact h.builds_kept keeps_line htrue
  | keywordInstruction => exact h.builds_kept (keeps_keywordInstruction hordered) htrue
  | initializer => exact h.builds_kept ⟨keeps_pick hordered rfl, trivial⟩ htrue
  | pointerMarks | arrayDims =>
    exact h.builds_kept (keeps_many hordered (.of_isSimple rfl) (by decide +kernel)) htrue
  | arrayDim => exact h.builds_kept (keeps_arrayDim hordered) htrue
  | variableCreation => exact h.builds_kept (keeps_variableCreation hordered) htrue
  | variableDecl => exact h.builds_kept (keeps_variableDecl hordered) htrue
  | structType => exact h.builds_kept (keeps_structType hordered) htrue
  | typeName => exact h.builds_kept (keeps_typeName hordered) htrue
  | expression => exact h.builds_kept (keeps_expression hordered) htrue
  | assignment => exact h.builds_assignment.imp fun t ht => ⟨ht, trivial⟩
  | ternary => exact h.builds_ternary
  | flat =>
    exact h.builds_level (p := .flat) (by decide)
      ((h.rule .shift).imp fun t ht => ⟨ht.1, ht.2.trans_lt (by decide)⟩)
  | shift =>
    exact h.builds_level (p := .shift) (by decide)
      ((h.rule .additive).imp fun t ht => ⟨ht.1, ht.2.trans_lt (by decide)⟩)
  | additive =>
    exact h.builds_level (p := .additive) (by decide)
      ((h.rule .multiplicative).imp fun t ht => ⟨ht.1, ht.2.trans_lt (by decide)⟩)
  | multiplicative =>
    exact h.builds_level (p := .multiplicative) (by decide)
      ((h.rule .unary).imp fun t ht => ⟨ht.1, ht.2.trans_lt (by decide)⟩)
  | indirection => exact h.builds_indirection
  | unary => exact h.builds_unary
  | postfixed => exact h.builds_postfixed
  | parens => exact h.builds_parens
  | rvalue => exact h.builds_rvalue
  | access => exact h.builds_access
  | lvalue => exact h.builds_lvalue

end OrderedMatches

theorem ordered_of_plain {tokens : Array Token} {fuel place next : Nat} {name : Rule} {tree : Tree}
    (h : plain (fun name => .ok (Rule.grammar name)) tokens fuel (.rule name) place
      = .ok (some (tree, next))) : tree.Ordered ∧ name.Tops tree := by
  induction fuel using Nat.strongRecOn generalizing name place tree next with
  | ind fuel ih =>
    have hordered : OrderedMatches tokens
        (Within (fun name => .ok (Rule.grammar name)) tokens fuel) := {
      unfolds := Within.unfolds fuel
      rule := by
        rintro name tree ⟨place, next, less, hless, hmatch⟩
        exact ih less hless hmatch }
    cases matchesBy_of_plain h with
    | rule hbody htree =>
      cases hbody
      exact hordered.builds_grammar name tree ⟨_, _, htree⟩

/-! ## Parsed programs -/

/-- How the operators in a tree group what stands around them. -/
structure Tree.Grouped (tree : Tree) : Prop where
  /-- The left operand of a binary operator is not looser than it, and the right one is tighter. -/
  binary (op : String) (children : List Tree) (hbelow : (Tree.node (.word op) children).Below tree)
    (hop : op ∈ binaryOperators) : ∃ left right, children = [left, right] ∧
      left.precedence ≤ .ofOperator op ∧ right.precedence < .ofOperator op
  /-- The operand of a unary operator is split by no operator. -/
  unary (label : Label) (children : List Tree) (hbelow : (Tree.node label children).Below tree)
    (hlabel : label ∈ Tree.unaryLabels) : ∃ e, children = [e] ∧ e.precedence = .operand
  cast (children : List Tree) (hbelow : (Tree.node .typeCast children).Below tree) :
    ∃ type e, children = [type, e] ∧ e.precedence = .operand
  /-- A condition is no conditional expression and no assignment, and the last of the three no
  assignment. -/
  conditional (children : List Tree) (hbelow : (Tree.node .ternary children).Below tree) :
    ∃ cond first second, children = [cond, first, second] ∧ cond.precedence ≤ .flat ∧
      second.precedence ≤ .conditional
  assignment (op : String) (children : List Tree)
    (hbelow : (Tree.node (.word op) children).Below tree) (hop : op ∈ assignmentOperators) :
    ∃ target value, children = [target, value] ∧ target.IsTarget
  /-- The operators of one level are nested to the left. -/
  binaryChain (t : Tree) (hbelow : t.Below tree) (hlevel : t.precedence ∈ Precedence.levels) :
    ∃ first rest, rest ≠ [] ∧ t = Tree.leftChain first rest ∧ first.precedence < t.precedence ∧
      ∀ piece ∈ rest, .ofOperator piece.1 = t.precedence ∧ piece.2.precedence < t.precedence
  /-- Assignments are nested to the right. -/
  assignmentChain (t : Tree) (hbelow : t.Below tree) (hassign : t.precedence = .assignment) :
    ∃ assigned value, assigned ≠ [] ∧ t = Tree.assignmentChain assigned value ∧
      value.precedence ≠ .assignment ∧
      ∀ piece ∈ assigned, .ofOperator piece.2 = Precedence.assignment ∧ piece.1.IsTarget
  /-- Conditional expressions are nested to the right. -/
  conditionalChain (t : Tree) (hbelow : t.Below tree) (hconditional : t.precedence = .conditional) :
    ∃ cases last, cases ≠ [] ∧ t = Tree.conditionalChain cases last ∧ last.precedence ≤ .flat ∧
      ∀ piece ∈ cases, piece.1.precedence ≤ .flat

theorem Tree.Ordered.grouped {tree : Tree} (h : tree.Ordered) : tree.Grouped where
  binary _ _ hbelow hop := (h.of_below hbelow).fits.1 (Precedence.ofOperator_mem_levels hop)
  unary _ _ hbelow hlabel := Tree.fits_of_unary hlabel (h.of_below hbelow).fits
  cast _ hbelow := (h.of_below hbelow).fits
  conditional _ hbelow := (h.of_below hbelow).fits
  assignment _ _ hbelow hop := (h.of_below hbelow).fits.2 (Precedence.ofOperator_of_mem hop)
  binaryChain _ hbelow := (h.of_below hbelow).exists_leftChain
  assignmentChain _ hbelow := (h.of_below hbelow).exists_assignmentChain
  conditionalChain _ hbelow := (h.of_below hbelow).exists_conditionalChain

/-- In the tree of a parse, no operand stands without parentheses where it is looser than its
operator allows, and operators of one level, assignments and conditional expressions are nested to
their own side. -/
theorem grouped_of_parseTree {tokens : List Token} {tree : Tree} (h : parseTree tokens = .ok tree) :
    tree.Grouped := by
  obtain ⟨matched, rfl, hmatched⟩ := exists_of_parseTree h
  exact ((ordered_of_plain hmatched).1.numberFrom 0).grouped

/-- The tokens of `int x=y=a-b-c*d?e:f?g:h<<2;`. -/
def chainTokens : List Token :=
  let name (text : String) (column id : Nat) : Token := ⟨⟨.identifier, text, ⟨1, column⟩, []⟩, id⟩
  let mark (text : String) (column id : Nat) : Token := ⟨⟨.punctuator, text, ⟨1, column⟩, []⟩, id⟩
  [⟨⟨.typeKeyword, "int", ⟨1, 1⟩, []⟩, 1⟩, name "x" 5 2, mark "=" 6 3, name "y" 7 4, mark "=" 8 3,
   name "a" 9 5, mark "-" 10 6, name "b" 11 7, mark "-" 12 6, name "c" 13 8, mark "*" 14 9,
   name "d" 15 10, mark "?" 16 11, name "e" 17 12, mark ":" 18 13, name "f" 19 14, mark "?" 20 11,
   name "g" 21 15, mark ":" 22 13, name "h" 23 16, mark "<<" 24 17,
   ⟨⟨.literal (.integer .plain true .decimal), "2", ⟨1, 26⟩, []⟩, 18⟩, mark ";" 27 19]

/-- The tree of these tokens, whose leaves have no numbers yet. -/
def chainTree : Tree :=
  let leaf (place : Nat) : Tree := .leaf (chainTokens.getD place default) 0
  let binary (op : String) (left right : Tree) : Tree := .node (.word op) [left, right]
  .node .program [.node .variableInit [.node .variableDecl [leaf 0, leaf 1],
    binary "=" (leaf 3) (.node .ternary [
      binary "-" (binary "-" (leaf 5) (leaf 7)) (binary "*" (leaf 9) (leaf 11)), leaf 13,
      .node .ternary [leaf 15, leaf 17, binary "<<" (leaf 19) (leaf 21)]])]]

/-- The differences are nested to the left, and the conditional expressions to the right. -/
theorem grouped_of_parseTree_chain :
    parseTree chainTokens = .ok chainTree.numbered ∧ chainTree.numbered.Grouped := by
  have htree : parseTree chainTokens = .ok chainTree.numbered := parseTree_of_plain (by rfl)
  exact ⟨htree, grouped_of_parseTree htree⟩

end MiniC
