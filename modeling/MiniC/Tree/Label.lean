set_option autoImplicit false

/-! # Labels of tree nodes

What the inner nodes of a tree stand for. The labels up to `arrow` are those of the C grammar; a
node of a binary operator or an assignment is labelled with the operator itself, and the nodes of
any other grammar with the names that it gives them. -/

namespace MiniC

/-- The label of an inner node. -/
inductive Label
  -- declarations
  | program
  | structDecl
  | structFields
  | functionDecl
  | functionPrototype
  | functionParameters
  | variableDecl
  | variableInit
  | variablesDecl
  | arrayDim
  | arrayOpen
  | initList
  | initValues
  -- statements
  | ifBranch
  | elseIfBranch
  | elseBranch
  | ifChain
  | ifChainElse
  | switchOn
  | cases
  | switchCase
  | forLoop
  | whileLoop
  | doWhileLoop
  | block
  | emptyLine
  | line
  | lines
  | jumpLabel
  | returnFrom
  | goTo
  -- expressions
  | ternary
  | preIncrement
  | preDecrement
  | postIncrement
  | postDecrement
  | negation
  | plus
  | indirection
  | logicalNot
  | complement
  | addressOf
  | sizeOf
  | typeCast
  | call
  | parens
  | indexer
  | member
  | arrow
  /-- A node named after an operator, or by the grammar. -/
  | word (text : String)
deriving DecidableEq, Repr, Inhabited

namespace Label

/-- A label as it is shown. -/
def text : Label → String
  | .program => "Program"
  | .structDecl => "Struct declaration"
  | .structFields => "Struct fields"
  | .functionDecl => "Function declaration"
  | .functionPrototype => "Function prototype"
  | .functionParameters => "Function parameters"
  | .variableDecl => "Variable declaration"
  | .variableInit => "Variable initialization"
  | .variablesDecl => "Variables declaration"
  | .arrayDim => "Array declaration [..]"
  | .arrayOpen => "Array declaration []"
  | .initList => "\x7b..\x7d"
  | .initValues => "Init values"
  | .ifBranch => "If statement"
  | .elseIfBranch => "Else if statement"
  | .elseBranch => "Else statement"
  | .ifChain => "If else if statements"
  | .ifChainElse => "If else if else statements"
  | .switchOn => "Switch case"
  | .cases => "Cases"
  | .switchCase => "Case"
  | .forLoop => "For loop"
  | .whileLoop => "While loop"
  | .doWhileLoop => "Do while loop"
  | .block => "Block of code"
  | .emptyLine => "Empty line ;"
  | .line => "Line ;"
  | .lines => "Lines ;"
  | .jumpLabel => "Label"
  | .returnFrom => "Return"
  | .goTo => "Go to"
  | .ternary => "Ternary operator ?:"
  | .preIncrement => "Preincrement ++"
  | .preDecrement => "Predecrement --"
  | .postIncrement => "Postincrement ++"
  | .postDecrement => "Postdecrement --"
  | .negation => "Negation -"
  | .plus => "Plus +"
  | .indirection => "Indirection *"
  | .logicalNot => "Logical not !"
  | .complement => "Bitwise complement ~"
  | .addressOf => "Address-of &"
  | .sizeOf => "Sizeof"
  | .typeCast => "Type cast"
  | .call => "Function calling"
  | .parens => "(..)"
  | .indexer => "Indexer [..]"
  | .member => "Member access ."
  | .arrow => "Member access ->"
  | .word text => text

/-- Whether a node only wraps its first child: parentheses and single lines. -/
def isWrapper : Label → Bool
  | .parens => true
  | .line => true
  | _ => false

end Label

end MiniC
