import MiniC.Cli.Report
import MiniC.Proofs.Bounds
import MiniC.Proofs.Parsing.Termination
import MiniC.Proofs.Ranges
import MiniC.Proofs.Shapes.Built
import MiniC.Proofs.Shapes.Readings

set_option autoImplicit false

/-! # Every parsed tree is of the right form

For each rule of the language there is one lemma on the form of its trees, where all other rules
make trees of the forms that they have to. By induction on the fuel of a parse, all rules do. So the
tree of a parse stands for a program, and the phases behind the parser need not ask again. -/

namespace MiniC

open Grammar Rule

/-- What the trees of a rule are. -/
def Rule.Makes : Rule → Tree → Prop
  | .program => Form.program.Shapes
  | .structDecl | .functionDecl | .functionPrototype => Form.item.Shapes
  | .parameters => Form.parameters.Shapes
  | .structField | .variableDecl => Form.variable.Shapes
  | .variableCreation => Form.declaration.Shapes
  | .initializer => fun tree => tree = .empty ∨ Form.expression.Shapes tree
  | .arrayDim => Form.dimension.Shapes
  | .arrayDims => fun tree => ∀ dim ∈ tree.children, Form.dimension.Shapes dim
  | .structType | .typeName => Form.typeName.Shapes
  -- the marks become words of a type name, whatever they are
  | .pointerMarks => fun _ => True
  | .body | .statement | .ifChain | .switchOn | .forLoop | .doWhileLoop | .whileLoop | .line =>
    Form.statement.Shapes
  | .ifBranch => Form.ifBranch.Shapes
  | .elseIfBranch => Form.elseIfBranch.Shapes
  | .elseBranch => Form.elseBranch.Shapes
  | .switchCase => Form.switchCase.Shapes
  | .scope | .lines => Form.block.Shapes
  | .jumpLabel => Form.part.Shapes
  | .instruction | .keywordInstruction => Form.instruction.Shapes
  | .access => fun tree => ∀ left, Form.expression.Shapes left →
      Form.expression.Shapes (applyAccess left tree)
  | .expression | .assignment | .ternary | .flat | .shift | .additive | .multiplicative
  | .indirection | .unary | .postfixed | .parens | .rvalue | .lvalue => Form.expression.Shapes

/-- Matches over tokens of which no type keyword is spelled like a pointer mark, where all rules
make what they have to. -/
structure Making (tokens : Array Token) (M : G → Nat → Tree → Nat → Prop) : Prop where
  unfolds : Unfolds (fun name => .ok (Rule.grammar name)) tokens M
  plain : ∀ t ∈ tokens, t.kind = .typeKeyword → t.text ≠ "*"
  rule (name : Rule) : Builds M (.rule name) name.Makes

namespace Making

variable {tokens : Array Token} {M : G → Nat → Tree → Nat → Prop} (h : Making tokens M)

include h

/-! ## Sequences and tokens -/

/-- The tree of a sequence has a property if it follows from what the steps matched. -/
theorem builds_seq {steps : List (Step G)} {f : List Tree → Tree} {P : Tree → Prop}
    (hf : ∀ trees, (∀ (i : Nat) {step : Step G}, steps[i]? = some step →
      Matched M step.grammar (pick i trees)) → P (f trees)) : Builds M (seq steps f) P :=
  .made h.unfolds hf

theorem builds_many {element : G} {label : Label} {P Q : Tree → Prop}
    (helement : Builds M element P)
    (hall : ∀ trees, (∀ t ∈ trees, P t) → Q (.node label trees)) :
    Builds M (many element label) Q :=
  helement.items h.unfolds fun trees htrees _ => hall trees htrees

theorem builds_identifier : Builds M identifier Form.name.Shapes :=
  builds_token h.unfolds fun _ _ ht => .name ht

theorem builds_identifierExpression : Builds M identifier Form.expression.Shapes :=
  builds_token h.unfolds fun _ _ ht => .identifier ht

theorem builds_literal : Builds M literal Form.expression.Shapes :=
  builds_token h.unfolds fun _ _ ht => .literal ht

/-! ## Expressions -/

theorem builds_expression : Builds M (Rule.grammar .expression) Form.expression.Shapes :=
  .oneOf h.unfolds (h.rule .assignment)
    ⟨h.rule .ternary,
     .block h.unfolds (P := Form.values.Shapes)
      ((h.rule .expression).items h.unfolds fun trees htrees hempty => by
        cases trees with
        | nil => cases hempty rfl
        | cons _ _ => exact .values htrees)
      fun _ hvalues => .list hvalues⟩

theorem builds_assignment : Builds M (Rule.grammar .assignment) Form.expression.Shapes := by
  refine h.builds_seq fun trees htrees => ?_
  have hleft : Builds M (.choice (.rule .indirection) (.rule .lvalue)) Form.expression.Shapes :=
    (h.rule .indirection).choice h.unfolds (h.rule .lvalue)
  obtain ⟨operator, hop, hleaf⟩ := builds_punctOf h.unfolds _ (htrees 1 rfl)
  rw [hleaf]
  exact .assignment hop (hleft _ (htrees 0 rfl)) (h.rule .expression _ (htrees 2 rfl))

theorem builds_ternary : Builds M (Rule.grammar .ternary) Form.expression.Shapes :=
  .choice h.unfolds
    (h.builds_seq fun _ htrees => .conditional (h.rule .flat _ (htrees 0 rfl))
      (h.rule .expression _ (htrees 2 rfl)) (h.rule .ternary _ (htrees 4 rfl)))
    (h.rule .flat)

theorem builds_level {operand : Rule} {operators : List String}
    (hoperand : Builds M (.rule operand) Form.expression.Shapes)
    (hoperators : operators ⊆ binaryOperators) :
    Builds M (level operand operators) Form.expression.Shapes :=
  .level h.unfolds hoperand (fun _ => id) fun _ hop _ _ => .binary (hoperators hop)

theorem builds_prefixed {operator : String} {operand : Rule} {label : Label}
    (hoperand : Builds M (.rule operand) Form.expression.Shapes) (hlabel : label ∈ operandLabels) :
    Builds M (.prefixed operator (.rule operand) label) Form.expression.Shapes :=
  hoperand.prefixed h.unfolds fun _ ht => .operand hlabel ht

theorem builds_unary : Builds M (Rule.grammar .unary) Form.expression.Shapes :=
  .oneOf h.unfolds (h.builds_prefixed (h.rule .lvalue) (by decide))
    ⟨h.builds_prefixed (h.rule .lvalue) (by decide),
     h.builds_prefixed (h.rule .unary) (by decide),
     h.builds_prefixed (h.rule .unary) (by decide),
     h.rule .indirection,
     h.builds_prefixed (h.rule .unary) (by decide),
     h.builds_prefixed (h.rule .unary) (by decide),
     h.builds_prefixed (h.rule .unary) (by decide),
     h.builds_seq fun _ htrees => .sizeOf (h.rule .typeName _ (htrees 2 rfl)),
     h.builds_seq fun _ htrees =>
      .cast (h.rule .typeName _ (htrees 1 rfl)) (h.rule .unary _ (htrees 3 rfl)),
     h.rule .postfixed⟩

theorem builds_call : Builds M
    (seq [(Grammar.rule rvalue).step, (punct "(").step,
        (Grammar.items (.rule .expression) (.word "Function call args") (some ",") true).step,
        (punct ")").orFail "Invalid function call: ')' is missed."]
      fun trees => .node .call (pick 0 trees :: (pick 2 trees).children))
    Form.expression.Shapes := by
  refine h.builds_seq fun _ htrees => .call (h.rule .rvalue _ (htrees 0 rfl)) ?_
  have hargs : Builds M (.items (.rule .expression) (.word "Function call args") (some ",") true)
      fun tree => ∀ t ∈ tree.children, Form.expression.Shapes t :=
    (h.rule .expression).items h.unfolds fun args hargs _ => hargs
  exact hargs _ (htrees 2 rfl)

theorem builds_postfixed : Builds M (Rule.grammar .postfixed) Form.expression.Shapes :=
  .oneOf h.unfolds
    ((h.rule .lvalue).suffixed h.unfolds fun _ ht => .operand (by decide) ht)
    ⟨(h.rule .lvalue).suffixed h.unfolds fun _ ht => .operand (by decide) ht, h.builds_call,
     h.rule .rvalue⟩

theorem builds_parens : Builds M (Rule.grammar .parens) Form.expression.Shapes :=
  (h.rule .expression).block h.unfolds fun _ ht => .operand (by decide) ht

theorem builds_rvalue : Builds M (Rule.grammar .rvalue) Form.expression.Shapes :=
  .oneOf h.unfolds (h.rule .lvalue) ⟨h.rule .parens, h.builds_literal⟩

theorem builds_access : Builds M (Rule.grammar .access) (Rule.Makes .access) :=
  .oneOf h.unfolds
    (h.builds_seq fun _ htrees _ hleft =>
      .index hleft (h.rule .expression _ (htrees 1 rfl)))
    ⟨h.builds_seq fun _ htrees _ hleft =>
      .member hleft (h.builds_identifier _ (htrees 1 rfl)),
     h.builds_seq fun _ htrees _ hleft =>
      .arrow hleft (h.builds_identifier _ (htrees 1 rfl))⟩

theorem builds_lvalue : Builds M (Rule.grammar .lvalue) Form.expression.Shapes :=
  .choice h.unfolds
    (.fold h.unfolds (h.builds_identifierExpression.choice h.unfolds (h.rule .parens))
      fun tree piece htree hpiece => h.rule .access piece hpiece tree htree)
    h.builds_identifierExpression

/-! ## Type names -/

theorem builds_simpleType : Builds M simpleType Form.typeName.Shapes :=
  builds_token h.unfolds fun t hmem ht => by
    have hkind : t.kind = .typeKeyword := by simp_all
    exact .typeWord hkind (h.plain t hmem hkind)

theorem builds_structType : Builds M (Rule.grammar .structType) Form.typeName.Shapes := by
  refine h.builds_seq fun trees htrees => ?_
  have hword : Builds M (typeWord "struct") Form.typeName.Shapes :=
    builds_token h.unfolds fun t hmem ht => by
      have hkind : t.kind = .typeKeyword := by simp_all [Token.isTypeKeyword]
      exact .typeWord hkind (h.plain t hmem hkind)
  have htag : Builds M identifier fun tree => tree.typeTokens ≠ [] :=
    builds_token h.unfolds fun t _ _ => List.cons_ne_nil t []
  exact shapes_joinTypes (hword _ (htrees 0 rfl)) (htag _ (htrees 1 rfl))

theorem builds_typeName : Builds M (Rule.grammar .typeName) Form.typeName.Shapes := by
  refine .fold h.unfolds ((h.rule .structType).choice h.unfolds h.builds_simpleType) ?_
  intro tree piece htree hpiece
  have hwords {tree : Tree} (htree : Form.typeName.Shapes tree) : tree.typeTokens ≠ [] := by
    obtain ⟨first, rest, hwords, -⟩ := exists_of_shapes_typeName htree
    rw [hwords]
    exact List.cons_ne_nil first rest
  have hpieces : Builds M (.oneOf (.rule .structType) [simpleType, punct "*"])
      fun tree => tree.typeTokens ≠ [] :=
    .oneOf h.unfolds ((h.rule .structType).imp fun _ => hwords)
      ⟨h.builds_simpleType.imp fun _ => hwords,
       builds_token h.unfolds fun t _ _ => List.cons_ne_nil t []⟩
  exact shapes_joinTypes htree (hpieces piece hpiece)

/-! ## Variables -/

theorem builds_initializer : Builds M (Rule.grammar .initializer) (Rule.Makes .initializer) :=
  .optional h.unfolds
    (h.builds_seq fun _ htrees => .inr (h.rule .expression _ (htrees 1 rfl))) (.inl rfl)

theorem builds_arrayDim : Builds M (Rule.grammar .arrayDim) Form.dimension.Shapes := by
  refine h.builds_seq fun trees htrees => ?_
  have hsize : Builds M (.choice (.rule .expression) .empty) (Rule.Makes .initializer) :=
    .optional h.unfolds ((h.rule .expression).imp fun _ => .inr) (.inl rfl)
  have hsize := hsize _ (htrees 1 rfl)
  rw [dimension]
  split
  · exact .unsized
  next hne => exact .sized (hsize.resolve_left hne)

theorem builds_arrayDims : Builds M (Rule.grammar .arrayDims) (Rule.Makes .arrayDims) :=
  h.builds_many (h.rule .arrayDim) fun _ hdims => hdims

theorem builds_variableDecl : Builds M (Rule.grammar .variableDecl) Form.variable.Shapes :=
  .fold h.unfolds
    (h.builds_seq fun _ htrees => .variable (h.rule .typeName _ (htrees 0 rfl))
      (h.builds_identifier _ (htrees 1 rfl)) (by simp))
    fun tree piece htree hpiece => shapes_addDim htree (h.rule .arrayDim piece hpiece)

theorem builds_variableCreation :
    Builds M (Rule.grammar .variableCreation) Form.declaration.Shapes := by
  refine .fold h.unfolds
    (h.builds_seq fun _ htrees => .single <|
      shapes_withInitializer (h.rule .variableDecl _ (htrees 0 rfl))
        (h.rule .initializer _ (htrees 1 rfl))) ?_
  intro tree piece htree hpiece
  obtain ⟨trees, hmerge, hlength, htrees⟩ := exists_of_matched_sequence h.unfolds hpiece
  cases hmerge
  match trees, hlength with
  | [comma, marks, name, dims, init], _ =>
    exact shapes_addDeclarator htree (h.builds_identifier _ (htrees 2 rfl))
      (h.rule .arrayDims _ (htrees 3 rfl)) (h.rule .initializer _ (htrees 4 rfl))

/-! ## Instructions -/

theorem builds_keywordInstruction :
    Builds M (Rule.grammar .keywordInstruction) Form.instruction.Shapes := by
  have hvalue : Builds M (.choice (.rule .expression) .empty) fun tree =>
      Form.instruction.Shapes (.node .returnFrom [tree]) :=
    .optional h.unfolds ((h.rule .expression).imp fun _ => .returnValue) .returnNothing
  exact .oneOf h.unfolds (builds_token h.unfolds fun _ _ ht => .break ht)
    ⟨builds_token h.unfolds fun _ _ ht => .continue ht,
     h.builds_seq fun _ htrees => hvalue _ (htrees 1 rfl),
     h.builds_seq fun _ htrees => .goto (h.builds_identifier _ (htrees 1 rfl))⟩

theorem builds_instruction : Builds M (Rule.grammar .instruction) Form.instruction.Shapes :=
  .oneOf h.unfolds ((h.rule .variableCreation).imp fun _ => .declare)
    ⟨(h.rule .variableDecl).imp fun _ hdecl => .declare (.single (.bare hdecl)),
     (h.rule .expression).imp fun _ => .evaluate, h.rule .keywordInstruction⟩

theorem builds_optionalInstruction : Builds M optionalInstruction Form.header.Shapes :=
  .optional h.unfolds ((h.rule .instruction).imp fun _ => .given) .omitted

/-! ## Statements -/

theorem builds_line : Builds M (Rule.grammar .line) Form.statement.Shapes := by
  refine h.builds_seq fun trees htrees => ?_
  have hinstrs : Builds M (.items (.rule .instruction) (.word "Instruction list") (some ",") true)
      fun tree => ∀ t ∈ tree.children, Form.instruction.Shapes t :=
    (h.rule .instruction).items h.unfolds fun instrs hinstrs _ => hinstrs
  have hinstrs : ∀ t ∈ (pick 0 trees).children, Form.instruction.Shapes t :=
    hinstrs _ (htrees 0 rfl)
  -- the label depends on the number of instructions
  rw [lineOf]
  generalize (pick 0 trees).children = instrs at hinstrs ⊢
  match instrs with
  | [] => exact .emptyLine
  | [instr] => exact .line (hinstrs instr List.mem_cons_self)
  | _ :: _ :: _ => exact .lines hinstrs

theorem builds_ifChain : Builds M (Rule.grammar .ifChain) Form.statement.Shapes := by
  refine h.builds_seq fun trees htrees => ?_
  have hbranches : Builds M (many (.rule .elseIfBranch) (.word "Else if operators"))
      fun tree => ∀ t ∈ tree.children, Form.elseIfBranch.Shapes t :=
    h.builds_many (h.rule .elseIfBranch) fun branches hbranches => hbranches
  have hchain : Builds M
      (seq [(Grammar.rule ifBranch).step,
          (many (.rule .elseIfBranch) (.word "Else if operators")).step]
        fun trees => .node .ifChain (pick 0 trees :: (pick 1 trees).children))
      fun tree => ∃ first rest, tree = .node .ifChain (first :: rest) ∧
        Form.ifBranch.Shapes first ∧ ∀ t ∈ rest, Form.elseIfBranch.Shapes t :=
    h.builds_seq fun _ htrees => ⟨_, _, rfl, h.rule .ifBranch _ (htrees 0 rfl),
      hbranches _ (htrees 1 rfl)⟩
  have hlast : Builds M (.choice (.rule .elseBranch) .empty) fun tree =>
      tree = .empty ∨ Form.elseBranch.Shapes tree :=
    .optional h.unfolds ((h.rule .elseBranch).imp fun _ => .inr) (.inl rfl)
  obtain ⟨first, rest, htree, hfirst, hrest⟩ := hchain _ (htrees 0 rfl)
  have hlast := hlast _ (htrees 1 rfl)
  rw [withElse, htree]
  split
  · exact .ifChain hfirst hrest
  next hne => exact .ifChainElse hfirst hrest (hlast.resolve_left hne)

theorem builds_switchCase : Builds M (Rule.grammar .switchCase) Form.switchCase.Shapes := by
  refine h.builds_seq fun trees htrees => ?_
  have hlabel : Builds M (.choice
      (seq [(word "case").step, (Grammar.rule expression).step] (pick 1)) (word "default"))
      Form.caseLabel.Shapes :=
    .choice h.unfolds
      (h.builds_seq fun _ htrees => .caseValue (h.rule .expression _ (htrees 1 rfl)))
      (builds_token h.unfolds fun _ _ ht => .default ht)
  exact .switchCase (hlabel _ (htrees 0 rfl)) (h.rule .lines _ (htrees 2 rfl))

theorem builds_switchOn : Builds M (Rule.grammar .switchOn) Form.statement.Shapes := by
  intro tree htree
  obtain ⟨trees, hmerge, -, htrees⟩ := exists_of_matched_sequence h.unfolds htree
  have hcases : Builds M (many (.rule .switchCase) .cases) fun tree =>
      ∃ cases, tree = .node .cases cases ∧ ∀ t ∈ cases, Form.switchCase.Shapes t :=
    h.builds_many (h.rule .switchCase) fun cases hcases => ⟨cases, rfl, hcases⟩
  obtain ⟨cases, hnode, hcases⟩ := hcases _ (htrees 5 rfl)
  simp only [switchTree, hnode, Tree.children] at hmerge
  split at hmerge
  · cases hmerge
  next hdefaults =>
    cases hmerge
    refine .switch (h.rule .expression _ (htrees 2 rfl)) (.cases hcases ?_)
    -- a second default case would have been an error
    match hlist : cases.filterMap defaultOf? with
    | [] | [_] => simp
    | first :: second :: rest => exact absurd hlist (hdefaults first second rest)

theorem builds_lines : Builds M (Rule.grammar .lines) Form.block.Shapes := by
  have hstatement {name : Rule} (hname : name.Makes = Form.statement.Shapes) :
      Builds M (.rule name) Form.part.Shapes :=
    (h.rule name).imp fun tree htree => .statement (hname ▸ htree)
  exact h.builds_many
    (.oneOf h.unfolds (hstatement rfl)
      ⟨h.rule .jumpLabel, hstatement rfl, hstatement rfl, hstatement rfl, hstatement rfl,
       hstatement rfl, (h.rule .scope).imp fun _ hbody => .statement (.nested hbody)⟩)
    fun parts hparts => .block hparts

/-! ## Pieces of a program -/

theorem builds_structDecl : Builds M (Rule.grammar .structDecl) Form.item.Shapes := by
  refine h.builds_seq fun trees htrees => ?_
  have hfields : Builds M
      (.block "\x7b" "\x7d" (many (.rule .structField) .structFields) .structFields)
      fun tree => Form.fields.Shapes (pick 0 tree.children) :=
    (h.builds_many (h.rule .structField) fun _ hfields => .fields hfields).block h.unfolds
      fun _ htree => htree
  exact .struct (h.builds_identifier _ (htrees 1 rfl)) (hfields _ (htrees 2 rfl))

theorem builds_parameters : Builds M (Rule.grammar .parameters) Form.parameters.Shapes := by
  refine .choice h.unfolds ?_
    ((h.rule .variableDecl).items h.unfolds fun params hparams _ => .parameters hparams)
  rintro tree ⟨place, next, hmatch⟩
  cases h.unfolds _ _ _ _ hmatch with
  | ahead _ _ => exact .parameters (by simp)

theorem builds_program : Builds M (Rule.grammar .program) Form.program.Shapes :=
  h.builds_many
    (.oneOf h.unfolds (h.rule .structDecl)
      ⟨h.rule .functionDecl, h.rule .functionPrototype,
       h.builds_seq fun _ htrees => .global (h.rule .variableCreation _ (htrees 0 rfl)),
       builds_token h.unfolds fun _ _ ht => .directive (by simpa using ht)⟩)
    fun items hitems => .program hitems

/-! ## All rules -/

theorem builds_grammar (name : Rule) : Builds M (Rule.grammar name) name.Makes := by
  cases name with
  | program => exact h.builds_program
  | structField => exact h.builds_seq fun _ htrees => h.rule .variableDecl _ (htrees 0 rfl)
  | structDecl => exact h.builds_structDecl
  | parameters => exact h.builds_parameters
  -- The numbers count the steps of a sequence: punctuation and keywords are steps too.
  | functionDecl =>
    exact h.builds_seq fun _ htrees => .function (h.rule .typeName _ (htrees 0 rfl))
      (h.builds_identifier _ (htrees 1 rfl)) (h.rule .parameters _ (htrees 3 rfl))
      (h.rule .scope _ (htrees 5 rfl))
  | functionPrototype =>
    exact h.builds_seq fun _ htrees => .prototype (h.rule .typeName _ (htrees 0 rfl))
      (h.builds_identifier _ (htrees 1 rfl)) (h.rule .parameters _ (htrees 3 rfl))
  | body =>
    exact .choice h.unfolds ((h.rule .scope).imp fun _ => .nested) (h.rule .statement)
  | statement =>
    exact .oneOf h.unfolds (h.rule .line)
      ⟨h.rule .whileLoop, h.rule .doWhileLoop, h.rule .forLoop, h.rule .ifChain, h.rule .switchOn⟩
  | ifBranch =>
    exact h.builds_seq fun _ htrees => .ifBranch (h.rule .expression _ (htrees 2 rfl))
      (h.rule .body _ (htrees 4 rfl))
  | elseIfBranch =>
    exact h.builds_seq fun _ htrees => .elseIfBranch (h.rule .expression _ (htrees 3 rfl))
      (h.rule .body _ (htrees 5 rfl))
  | elseBranch => exact h.builds_seq fun _ htrees => .elseBranch (h.rule .body _ (htrees 1 rfl))
  | ifChain => exact h.builds_ifChain
  | switchCase => exact h.builds_switchCase
  | switchOn => exact h.builds_switchOn
  | forLoop =>
    exact h.builds_seq fun _ htrees => .for (h.builds_optionalInstruction _ (htrees 2 rfl))
      (h.builds_optionalInstruction _ (htrees 4 rfl))
      (h.builds_optionalInstruction _ (htrees 6 rfl)) (h.rule .body _ (htrees 8 rfl))
  | doWhileLoop =>
    exact h.builds_seq fun _ htrees => .doWhile (h.rule .expression _ (htrees 4 rfl))
      (h.rule .body _ (htrees 1 rfl))
  | whileLoop =>
    exact h.builds_seq fun _ htrees => .while (h.rule .expression _ (htrees 2 rfl))
      (h.rule .body _ (htrees 4 rfl))
  | scope => exact h.builds_seq fun _ htrees => h.rule .lines _ (htrees 1 rfl)
  | lines => exact h.builds_lines
  | line => exact h.builds_line
  | instruction => exact h.builds_instruction
  | jumpLabel => exact h.builds_seq fun _ htrees => .label (h.builds_identifier _ (htrees 0 rfl))
  | keywordInstruction => exact h.builds_keywordInstruction
  | initializer => exact h.builds_initializer
  -- Stars are no form of their own; they become words of the type name around them.
  | pointerMarks => exact fun _ _ => trivial
  | arrayDim => exact h.builds_arrayDim
  | arrayDims => exact h.builds_arrayDims
  | variableCreation => exact h.builds_variableCreation
  | variableDecl => exact h.builds_variableDecl
  | structType => exact h.builds_structType
  | typeName => exact h.builds_typeName
  | expression => exact h.builds_expression
  | assignment => exact h.builds_assignment
  | ternary => exact h.builds_ternary
  | flat => exact h.builds_level (h.rule .shift) (by decide)
  | shift => exact h.builds_level (h.rule .additive) (by decide)
  | additive => exact h.builds_level (h.rule .multiplicative) (by decide)
  | multiplicative => exact h.builds_level (h.rule .unary) (by decide)
  | indirection => exact h.builds_prefixed (h.rule .unary) (by decide)
  | unary => exact h.builds_unary
  | postfixed => exact h.builds_postfixed
  | parens => exact h.builds_parens
  | rvalue => exact h.builds_rvalue
  | access => exact h.builds_access
  | lvalue => exact h.builds_lvalue

end Making

theorem makes_of_plain {tokens : Array Token}
    (hplain : ∀ t ∈ tokens, t.kind = .typeKeyword → t.text ≠ "*") {fuel place next : Nat}
    {name : Rule} {tree : Tree}
    (h : plain (fun name => .ok (Rule.grammar name)) tokens fuel (.rule name) place
      = .ok (some (tree, next))) : name.Makes tree := by
  induction fuel using Nat.strongRecOn generalizing name place tree next with
  | ind fuel ih =>
    have hmaking : Making tokens (Within (fun name => .ok (Rule.grammar name)) tokens fuel) := {
      unfolds := Within.unfolds fuel
      plain := hplain
      rule := by
        rintro name tree ⟨place, next, less, hless, hmatch⟩
        exact ih less hless hmatch }
    cases matchesBy_of_plain h with
    | rule hbody htree =>
      cases hbody
      exact hmaking.builds_grammar name tree ⟨_, _, htree⟩

/-! ## Parsed programs -/

/-- The tokens of `int*p,q={0};`. -/
def groupTokens : List Token := [
  ⟨⟨.typeKeyword, "int", ⟨1, 1⟩, []⟩, 1⟩, ⟨⟨.punctuator, "*", ⟨1, 4⟩, []⟩, 2⟩,
  ⟨⟨.identifier, "p", ⟨1, 5⟩, []⟩, 3⟩, ⟨⟨.punctuator, ",", ⟨1, 6⟩, []⟩, 4⟩,
  ⟨⟨.identifier, "q", ⟨1, 7⟩, []⟩, 5⟩, ⟨⟨.punctuator, "=", ⟨1, 8⟩, []⟩, 6⟩,
  ⟨⟨.punctuator, "\x7b", ⟨1, 9⟩, []⟩, 7⟩,
  ⟨⟨.literal (.integer .plain true .decimal), "0", ⟨1, 10⟩, []⟩, 8⟩,
  ⟨⟨.punctuator, "\x7d", ⟨1, 11⟩, []⟩, 9⟩, ⟨⟨.punctuator, ";", ⟨1, 12⟩, []⟩, 10⟩]

/-- The tree of these tokens, whose leaves have no numbers yet. -/
def groupTree : Tree :=
  let token (place : Nat) : Token := groupTokens.getD place default
  let leaf (place : Nat) : Tree := .leaf (token place) 0
  .node .program [
    .node .variablesDecl [
      .node .variableDecl [.typeName [token 0, token 1] 0, leaf 2],
      .node .variableInit [.node .variableDecl [leaf 0, leaf 4],
        .node .initList [.node .initValues [leaf 7]]]]]

/-- The tokens of `struct S {int a[2]; int a;}; int main(){struct S s; return 0;}`. -/
def repeatingTokens : List Token := [
  ⟨⟨.typeKeyword, "struct", ⟨1, 1⟩, []⟩, 1⟩, ⟨⟨.identifier, "S", ⟨1, 8⟩, []⟩, 2⟩,
  ⟨⟨.punctuator, "\x7b", ⟨1, 10⟩, []⟩, 3⟩,
  ⟨⟨.typeKeyword, "int", ⟨1, 11⟩, []⟩, 4⟩, ⟨⟨.identifier, "a", ⟨1, 15⟩, []⟩, 5⟩,
  ⟨⟨.punctuator, "[", ⟨1, 16⟩, []⟩, 6⟩,
  ⟨⟨.literal (.integer .plain true .decimal), "2", ⟨1, 17⟩, []⟩, 7⟩,
  ⟨⟨.punctuator, "]", ⟨1, 18⟩, []⟩, 8⟩, ⟨⟨.punctuator, ";", ⟨1, 19⟩, []⟩, 9⟩,
  ⟨⟨.typeKeyword, "int", ⟨1, 21⟩, []⟩, 4⟩, ⟨⟨.identifier, "a", ⟨1, 25⟩, []⟩, 5⟩,
  ⟨⟨.punctuator, ";", ⟨1, 26⟩, []⟩, 9⟩, ⟨⟨.punctuator, "\x7d", ⟨1, 27⟩, []⟩, 10⟩,
  ⟨⟨.punctuator, ";", ⟨1, 28⟩, []⟩, 9⟩,
  ⟨⟨.typeKeyword, "int", ⟨1, 30⟩, []⟩, 4⟩, ⟨⟨.identifier, "main", ⟨1, 34⟩, []⟩, 11⟩,
  ⟨⟨.punctuator, "(", ⟨1, 38⟩, []⟩, 12⟩, ⟨⟨.punctuator, ")", ⟨1, 39⟩, []⟩, 13⟩,
  ⟨⟨.punctuator, "\x7b", ⟨1, 40⟩, []⟩, 3⟩,
  ⟨⟨.typeKeyword, "struct", ⟨1, 41⟩, []⟩, 1⟩, ⟨⟨.identifier, "S", ⟨1, 48⟩, []⟩, 2⟩,
  ⟨⟨.identifier, "s", ⟨1, 50⟩, []⟩, 14⟩, ⟨⟨.punctuator, ";", ⟨1, 51⟩, []⟩, 9⟩,
  ⟨⟨.keyword, "return", ⟨1, 53⟩, []⟩, 15⟩,
  ⟨⟨.literal (.integer .plain true .decimal), "0", ⟨1, 60⟩, []⟩, 16⟩,
  ⟨⟨.punctuator, ";", ⟨1, 61⟩, []⟩, 9⟩, ⟨⟨.punctuator, "\x7d", ⟨1, 62⟩, []⟩, 10⟩]

/-- The tree of these tokens, whose leaves have no numbers yet. -/
def repeatingTree : Tree :=
  let token (place : Nat) : Token := repeatingTokens.getD place default
  let leaf (place : Nat) : Tree := .leaf (token place) 0
  .node .program [
    .node .structDecl [leaf 1, .node .structFields [
      .node .variableDecl [leaf 3, leaf 4, .node .arrayDim [leaf 6]],
      .node .variableDecl [leaf 9, leaf 10]]],
    .node .functionDecl [leaf 14, leaf 15, .node .functionParameters [], .node .block [
      .node .line [.node .variableDecl [.typeName [token 19, token 20] 0, leaf 21]],
      .node .line [.node .returnFrom [leaf 24]]]]]

end MiniC
