import MiniC.Grammar.Basic

set_option autoImplicit false

/-! # The rules of the language

The grammar of programs, as named rules. Expressions have four levels of binary operators: the
multiplicative ones bind tightest, then the additive ones, then shifts, and all others form a single
level. -/

namespace MiniC

/-- The names of the rules. -/
inductive Rule
  -- declarations
  | program
  | structField
  | structDecl
  | parameters
  | functionDecl
  | functionPrototype
  -- statements
  | body
  | statement
  | ifBranch
  | elseIfBranch
  | elseBranch
  | ifChain
  | switchCase
  | switchOn
  | forLoop
  | doWhileLoop
  | whileLoop
  | scope
  | lines
  | line
  | instruction
  | jumpLabel
  | keywordInstruction
  -- variables
  | initializer
  | pointerMarks
  | arrayDim
  | arrayDims
  | variableCreation
  | variableDecl
  | structType
  | typeName
  -- expressions
  | expression
  | assignment
  | ternary
  | flat
  | shift
  | additive
  | multiplicative
  | indirection
  | unary
  | postfixed
  | parens
  | rvalue
  | access
  | lvalue
deriving DecidableEq, Repr, Hashable

namespace Rule

/-- A grammar over the rules of the language. -/
abbrev G := Grammar Rule

/-! ## Tokens -/

/-- The punctuator with the given text. -/
def punct (text : String) : G := .token (·.isPunctuator text)

/-- One of several punctuators. -/
def punctOf (texts : List String) : G :=
  .token fun t => t.kind = .punctuator && texts.contains t.text

/-- The keyword with the given text. -/
def word (text : String) : G := .token (·.isKeyword text)

/-- The type keyword with the given text. -/
def typeWord (text : String) : G := .token (·.isTypeKeyword text)

/-- An identifier. -/
def identifier : G := .token Token.isIdentifier

/-- A literal. -/
def literal : G := .token Token.isLiteral

/-- A type keyword other than `struct`. -/
def simpleType : G := .token fun t => t.kind = .typeKeyword && t.text ≠ "struct"

/-- A preprocessor directive. -/
def directive : G := .token fun t => t.kind = .directive

/-! ## Making trees -/

/-- What a sequence with a tree that can always be made is merged by. -/
def make (f : List Tree → Tree) : List Tree → Except SyntaxError Tree :=
  fun trees => .ok (f trees)

/-- The tree of the step with the given place in its sequence. -/
def pick (place : Nat) (trees : List Tree) : Tree :=
  trees.getD place .empty

/-- A node whose children are the trees of the steps with the given places. -/
def nodeOf (label : Label) (places : List Nat) (trees : List Tree) : Tree :=
  .node label (places.map fun place => pick place trees)

/-- Two type names after one another as one type name. -/
def joinTypes (left right : Tree) : Tree :=
  .typeName (left.typeTokens ++ right.typeTokens) 0

/-- A variable declaration with a further dimension. -/
def addDim (decl dim : Tree) : Tree :=
  .node .variableDecl (decl.children ++ [dim])

/-- A dimension, with its size or without. -/
def dimension (trees : List Tree) : Tree :=
  match pick 1 trees with
  | .empty => .node .arrayOpen [.empty]
  | size => .node .arrayDim [size]

/-- A declaration with its initializer, if there is one. -/
def withInitializer (decl init : Tree) : Tree :=
  match init with
  | .empty => decl
  | _ => .node .variableInit [decl, init]

/-- The words of the type of a declarator in front of its first pointer mark. -/
def baseWords (declarator : Tree) : List Token :=
  let decl :=
    match declarator with
    | .node .variableInit (decl :: _) => decl
    | decl => decl
  ((pick 0 decl.children).typeTokens).takeWhile fun t => t.text ≠ "*"

/-- A declaration group with one more declarator, which is given as its pointer marks, its name, its
dimensions and its initializer. Its type has the base of the first declarator of the group. -/
def addDeclarator (group declarator : Tree) : Tree :=
  let decls :=
    match group with
    | .node .variablesDecl decls => decls
    | single => [single]
  match declarator with
  | .group [marks, name, dims, init] =>
    let words := baseWords (pick 0 decls) ++ marks.children.flatMap Tree.typeTokens
    let decl := .node .variableDecl (Tree.ofTypeTokens words :: name :: dims.children)
    .node .variablesDecl (decls ++ [withInitializer decl init])
  | _ => group

/-- An access to a part of what stands to the left of it. -/
def applyAccess (left access : Tree) : Tree :=
  match access with
  | .node label part => .node label (left :: part)
  | _ => left

/-- A line of instructions, labelled by their number. -/
def lineOf (trees : List Tree) : Tree :=
  let instructions := (pick 0 trees).children
  let label :=
    match instructions with
    | [] => Label.emptyLine
    | [_] => .line
    | _ => .lines
  .node label instructions

/-- A chain of conditions with its last branch, if there is one. -/
def withElse (trees : List Tree) : Tree :=
  match pick 1 trees with
  | .empty => pick 0 trees
  | last => .node .ifChainElse ((pick 0 trees).children ++ [last])

/-- The word `default` of a default case. -/
def defaultOf? : Tree → Option Token
  | .node .switchCase [.leaf token _, _] => if token.isKeyword "default" then some token else none
  | _ => none

/-- A switch, in which only one case may be the default case. -/
def switchTree (trees : List Tree) : Except SyntaxError Tree :=
  let cases := pick 5 trees
  match cases.children.filterMap defaultOf? with
  | _ :: second :: _ => .error ⟨.repeatedDefault, some second.pos⟩
  | _ => .ok (.node .switchOn [pick 2 trees, cases])

/-! ## The grammars -/

/-- A sequence made into a tree by `f`. -/
def seq (steps : List (Step G)) (f : List Tree → Tree) : G :=
  .sequence steps (make f)

/-- A repetition without separators, which may be empty. -/
def many (element : G) (label : Label) : G := .items element label none true

/-- A binary level: operands of the tighter level with operators between them, or one operand. -/
def level (operand : Rule) (operators : List String) : G :=
  .choice (.binary (.rule operand) (.rule operand) (punctOf operators)) (.rule operand)

/-- An optional instruction. -/
def optionalInstruction : G := .choice (.rule .instruction) .empty

/-- The grammar of a rule. -/
def grammar : Rule → G
  | .program =>
    many
      (.oneOf (.rule .structDecl)
        [.rule .functionDecl, .rule .functionPrototype,
         seq [(Grammar.rule variableCreation).step,
              (punct ";").orFail "; missed after variable creating."] (pick 0),
         directive])
      .program
  | .structField =>
    seq [(Grammar.rule variableDecl).step,
         (punct ";").orFail "Invalid struct field declaration: ';' is missed."] (pick 0)
  | .structDecl =>
    seq [(typeWord "struct").step, identifier.step,
         (Grammar.block "\x7b" "\x7d" (many (.rule .structField) .structFields)
           .structFields).step,
         (punct ";").orFail "Invalid structure declaration: ';' is missed."]
      fun trees => .node .structDecl [pick 1 trees, pick 0 (pick 2 trees).children]
  | .parameters =>
    .choice (.ahead (typeWord "void") ")" fun _ => .node .functionParameters [])
      (.items (.rule .variableDecl) .functionParameters (some ",") true)
  | .functionDecl =>
    seq [(Grammar.rule typeName).step, identifier.step, (punct "(").step,
         (Grammar.rule parameters).step,
         (punct ")").orFail "Invalid function declaration: ')' is missed.",
         (Grammar.rule scope).step]
      (nodeOf .functionDecl [0, 1, 3, 5])
  | .functionPrototype =>
    seq [(Grammar.rule typeName).step, identifier.step, (punct "(").step,
         (Grammar.rule parameters).step,
         (punct ")").orFail "Invalid function declaration: ')' is missed.",
         (punct ";").step]
      (nodeOf .functionPrototype [0, 1, 3])
  | .body => .choice (.rule .scope) (.rule .statement)
  | .statement =>
    .oneOf (.rule .line)
      [.rule .whileLoop, .rule .doWhileLoop, .rule .forLoop, .rule .ifChain, .rule .switchOn]
  | .ifBranch =>
    seq [(word "if").step,
         (punct "(").orFail "Invalid if declaration: '(' is missed.",
         (Grammar.rule expression).orFail "Invalid if declaration: predicate is missed.",
         (punct ")").orFail "Invalid if declaration: ')' is missed.",
         (Grammar.rule body).orFail "Invalid if declaration: body is missed."]
      (nodeOf .ifBranch [2, 4])
  | .elseIfBranch =>
    seq [(word "else").step, (word "if").step,
         (punct "(").orFail "Invalid else if declaration: '(' is missed.",
         (Grammar.rule expression).orFail "Invalid else if declaration: predicate is missed.",
         (punct ")").orFail "Invalid else if declaration: ')' is missed.",
         (Grammar.rule body).orFail "Invalid else if declaration: body is missed."]
      (nodeOf .elseIfBranch [3, 5])
  | .elseBranch =>
    seq [(word "else").step,
         (Grammar.rule body).orFail "Invalid else declaration: body is missed."]
      (nodeOf .elseBranch [1])
  | .ifChain =>
    seq [(seq [(Grammar.rule ifBranch).step,
               (many (.rule .elseIfBranch) (.word "Else if operators")).step]
            fun trees => .node .ifChain (pick 0 trees :: (pick 1 trees).children)).step,
         (Grammar.choice (.rule .elseBranch) .empty).step]
      withElse
  | .switchCase =>
    seq [(Grammar.choice
            (seq [(word "case").step, (Grammar.rule expression).step] (pick 1))
            (word "default")).step,
         (punct ":").orFail "Invalid case declaration: ':' is missed.",
         (Grammar.rule lines).step]
      (nodeOf .switchCase [0, 2])
  | .switchOn =>
    .sequence
      [(word "switch").step,
       (punct "(").orFail "Invalid switch declaration: '(' is missed.",
       (Grammar.rule expression).orFail "Invalid switch declaration: expression is missed.",
       (punct ")").orFail "Invalid switch declaration: ')' is missed.",
       (punct "\x7b").orFail "Invalid switch declaration: '\x7b' is missed.",
       (many (.rule .switchCase) .cases).step,
       (punct "\x7d").orFail "Invalid switch declaration: '\x7d' is missed."]
      switchTree
  | .forLoop =>
    seq [(word "for").step,
         (punct "(").orFail "Invalid for declaration: '(' is missed.",
         optionalInstruction.step,
         (punct ";").orFail "Invalid for declaration: ';' is missed.",
         optionalInstruction.step,
         (punct ";").orFail "Invalid for declaration: ';' is missed.",
         optionalInstruction.step,
         (punct ")").orFail "Invalid for declaration: ')' is missed.",
         (Grammar.rule body).orFail "Invalid for declaration: body is missed."]
      (nodeOf .forLoop [2, 4, 6, 8])
  | .doWhileLoop =>
    seq [(word "do").step,
         (Grammar.rule body).orFail "Invalid do while declaration: body is missed.",
         (word "while").orFail "Invalid do while declaration: 'while' is missed.",
         (punct "(").orFail "Invalid do while declaration: '(' is missed.",
         (Grammar.rule expression).orFail "Invalid do while declaration: predicate is missed.",
         (punct ")").orFail "Invalid do while declaration: ')' is missed.",
         (punct ";").orFail "Invalid do while declaration: ';' is missed."]
      (nodeOf .doWhileLoop [4, 1])
  | .whileLoop =>
    seq [(word "while").step,
         (punct "(").orFail "Invalid while declaration: '(' is missed.",
         (Grammar.rule expression).orFail "Invalid while declaration: predicate is missed.",
         (punct ")").orFail "Invalid while declaration: ')' is missed.",
         (Grammar.rule body).orFail "Invalid while declaration: body is missed."]
      (nodeOf .whileLoop [2, 4])
  | .scope =>
    seq [(punct "\x7b").step, (Grammar.rule lines).step, (punct "\x7d").step] (pick 1)
  | .lines =>
    many
      (.oneOf (.rule .line)
        [.rule .jumpLabel, .rule .whileLoop, .rule .doWhileLoop, .rule .forLoop, .rule .ifChain,
         .rule .switchOn, .rule .scope])
      .block
  | .line =>
    seq [(Grammar.items (.rule .instruction) (.word "Instruction list") (some ",") true).step,
         (punct ";").step]
      lineOf
  | .instruction =>
    .oneOf (.rule .variableCreation)
      [.rule .variableDecl, .rule .expression, .rule .keywordInstruction]
  | .jumpLabel => seq [identifier.step, (punct ":").step] (nodeOf .jumpLabel [0])
  | .keywordInstruction =>
    .oneOf (word "break")
      [word "continue",
       seq [(word "return").step, (Grammar.choice (.rule .expression) .empty).step]
         (nodeOf .returnFrom [1]),
       seq [(word "goto").step,
            identifier.orFail "Goto invalid declaration: label is missed."]
         (nodeOf .goTo [1])]
  | .initializer =>
    .choice (seq [(punct "=").step, (Grammar.rule expression).step] (pick 1)) .empty
  | .pointerMarks =>
    many (.choice (punct "*") (typeWord "const")) (.word "Pointer marks")
  | .arrayDim =>
    seq [(punct "[").step, (Grammar.choice (.rule .expression) .empty).step, (punct "]").step]
      dimension
  | .arrayDims => many (.rule .arrayDim) (.word "Array dimensions")
  | .variableCreation =>
    .fold
      (seq [(Grammar.rule variableDecl).step, (Grammar.rule initializer).step]
        fun trees => withInitializer (pick 0 trees) (pick 1 trees))
      (seq [(punct ",").step, (Grammar.rule pointerMarks).step, identifier.step,
            (Grammar.rule arrayDims).step, (Grammar.rule initializer).step]
        fun trees => .group (trees.drop 1))
      addDeclarator true
  | .variableDecl =>
    .fold
      (seq [(Grammar.rule typeName).step, identifier.step] (nodeOf .variableDecl [0, 1]))
      (.rule .arrayDim) addDim true
  | .structType =>
    seq [(typeWord "struct").step, identifier.step]
      fun trees => joinTypes (pick 0 trees) (pick 1 trees)
  | .typeName =>
    .fold (.choice (.rule .structType) simpleType)
      (.oneOf (.rule .structType) [simpleType, punct "*"])
      joinTypes true
  | .expression =>
    .oneOf (.rule .assignment)
      [.rule .ternary,
       .block "\x7b" "\x7d" (.items (.rule .expression) .initValues (some ",") false) .initList]
  | .assignment =>
    seq [(Grammar.choice (.rule .indirection) (.rule .lvalue)).step,
         (punctOf ["=", "+=", "-=", "*=", "/=", "%=", "&=", "^=", "|=", "<<=", ">>="]).step,
         (Grammar.rule expression).step]
      fun trees =>
        match pick 1 trees with
        | .leaf operator _ => .node (.word operator.text) [pick 0 trees, pick 2 trees]
        | _ => .empty
  | .ternary =>
    .choice
      (seq [(Grammar.rule flat).step, (punct "?").step, (Grammar.rule expression).step,
            (punct ":").orFail "Invalid ternary operator: ':' is missed.",
            (Grammar.rule ternary).step]
        (nodeOf .ternary [0, 2, 4]))
      (.rule .flat)
  | .flat =>
    level .shift ["==", "!=", ">", "<", ">=", "<=", "&", "^", "|", "&&", "||"]
  | .shift => level .additive ["<<", ">>"]
  | .additive => level .multiplicative ["+", "-"]
  | .multiplicative => level .unary ["*", "/", "%"]
  | .indirection => .prefixed "*" (.rule .unary) .indirection
  | .unary =>
    .oneOf (.prefixed "++" (.rule .lvalue) .preIncrement)
      [.prefixed "--" (.rule .lvalue) .preDecrement,
       .prefixed "-" (.rule .unary) .negation,
       .prefixed "+" (.rule .unary) .plus,
       .rule .indirection,
       .prefixed "!" (.rule .unary) .logicalNot,
       .prefixed "~" (.rule .unary) .complement,
       .prefixed "&" (.rule .unary) .addressOf,
       seq [(word "sizeof").step,
            (punct "(").orFail "Invalid sizeof operator: '(' is missed.",
            (Grammar.rule typeName).orFail "Invalid sizeof operator: type is missed.",
            (punct ")").orFail "Invalid sizeof operator: ')' is missed."]
         (nodeOf .sizeOf [2]),
       seq [(punct "(").step, (Grammar.rule typeName).step, (punct ")").step,
            (Grammar.rule unary).step]
         (nodeOf .typeCast [1, 3]),
       .rule .postfixed]
  | .postfixed =>
    .oneOf (.suffixed (.rule .lvalue) "++" .postIncrement)
      [.suffixed (.rule .lvalue) "--" .postDecrement,
       seq [(Grammar.rule rvalue).step, (punct "(").step,
            (Grammar.items (.rule .expression) (.word "Function call args") (some ",") true).step,
            (punct ")").orFail "Invalid function call: ')' is missed."]
         fun trees => .node .call (pick 0 trees :: (pick 2 trees).children),
       .rule .rvalue]
  | .parens => .block "(" ")" (.rule .expression) .parens
  | .rvalue => .oneOf (.rule .lvalue) [.rule .parens, literal]
  | .access =>
    .oneOf
      (seq [(punct "[").step, (Grammar.rule expression).step, (punct "]").step]
        (nodeOf .indexer [1]))
      [seq [(punct ".").step, identifier.step] (nodeOf .member [1]),
       seq [(punct "->").step,
            identifier.orFail "Invalid -> operator: identifier is missed."]
         (nodeOf .arrow [1])]
  | .lvalue =>
    .choice
      (.fold (.choice identifier (.rule .parens)) (.rule .access) applyAccess false)
      identifier

end Rule

end MiniC
