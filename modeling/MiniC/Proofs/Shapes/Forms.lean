import Mathlib.Data.List.Basic
import MiniC.Language.Rules

set_option autoImplicit false

/-! # The forms of trees

What the tree of a program looks like below every one of its labels: how many children a node has,
and of which forms they are. The numbers of the leaves make no difference to the form. -/

namespace MiniC

/-- What a tree can be in a program. -/
inductive Form
  | name
  | typeName
  | expression
  /-- The items of an initializer list. -/
  | values
  -- declarations
  | dimension
  /-- A variable without an initializer. -/
  | variable
  | declarator
  | declaration
  -- statements
  | instruction
  /-- An instruction that may be left out. -/
  | header
  | ifBranch
  | elseIfBranch
  | elseBranch
  | caseLabel
  | switchCase
  | cases
  | block
  | statement
  /-- What stands in a block. -/
  | part
  -- pieces of a program
  | fields
  | parameters
  | item
  | program
deriving DecidableEq, Repr

/-- The labels of the nodes with one operand. -/
def operandLabels : List Label :=
  [.parens, .preIncrement, .preDecrement, .postIncrement, .postDecrement, .negation, .plus,
   .indirection, .logicalNot, .complement, .addressOf]

/-- The binary operators. -/
def binaryOperators : List String :=
  ["==", "!=", ">", "<", ">=", "<=", "&", "^", "|", "&&", "||", "<<", ">>", "+", "-", "*", "/", "%"]

/-- The assignments. -/
def assignmentOperators : List String :=
  ["=", "+=", "-=", "*=", "/=", "%=", "&=", "^=", "|=", "<<=", ">>="]

/-- Whether a tree is of a form. -/
inductive Form.Shapes : Form → Tree → Prop
  -- leaves
  | name {token : Token} {slot : Nat} (hname : token.isIdentifier) : Shapes .name (.leaf token slot)
  | typeWord {token : Token} {slot : Nat} (hkind : token.kind = .typeKeyword)
    (htext : token.text ≠ "*") : Shapes .typeName (.leaf token slot)
  | typeWords {first second : Token} {rest : List Token} {slot : Nat}
    (hkind : first.kind = .typeKeyword) (htext : first.text ≠ "*") :
    Shapes .typeName (.typeName (first :: second :: rest) slot)
  -- expressions
  | identifier {token : Token} {slot : Nat} (hname : token.isIdentifier) :
    Shapes .expression (.leaf token slot)
  | literal {token : Token} {slot : Nat} (hliteral : token.isLiteral) :
    Shapes .expression (.leaf token slot)
  | operand {label : Label} {e : Tree} (hlabel : label ∈ operandLabels)
    (he : Shapes .expression e) : Shapes .expression (.node label [e])
  | sizeOf {type : Tree} (htype : Shapes .typeName type) :
    Shapes .expression (.node .sizeOf [type])
  | cast {type e : Tree} (htype : Shapes .typeName type) (he : Shapes .expression e) :
    Shapes .expression (.node .typeCast [type, e])
  | binary {op : String} {left right : Tree} (hop : op ∈ binaryOperators)
    (hleft : Shapes .expression left) (hright : Shapes .expression right) :
    Shapes .expression (.node (.word op) [left, right])
  | assignment {op : String} {left right : Tree} (hop : op ∈ assignmentOperators)
    (hleft : Shapes .expression left) (hright : Shapes .expression right) :
    Shapes .expression (.node (.word op) [left, right])
  | conditional {cond first second : Tree} (hcond : Shapes .expression cond)
    (hfirst : Shapes .expression first) (hsecond : Shapes .expression second) :
    Shapes .expression (.node .ternary [cond, first, second])
  | call {callee : Tree} {args : List Tree} (hcallee : Shapes .expression callee)
    (hargs : ∀ t ∈ args, Shapes .expression t) : Shapes .expression (.node .call (callee :: args))
  | index {base place : Tree} (hbase : Shapes .expression base)
    (hplace : Shapes .expression place) : Shapes .expression (.node .indexer [base, place])
  | member {e field : Tree} (he : Shapes .expression e) (hfield : Shapes .name field) :
    Shapes .expression (.node .member [e, field])
  | arrow {e field : Tree} (he : Shapes .expression e) (hfield : Shapes .name field) :
    Shapes .expression (.node .arrow [e, field])
  | values {head : Tree} {tail : List Tree} (hitems : ∀ t ∈ head :: tail, Shapes .expression t) :
    Shapes .values (.node .initValues (head :: tail))
  | list {values : Tree} (hvalues : Shapes .values values) :
    Shapes .expression (.node .initList [values])
  -- declarations
  | sized {size : Tree} (hsize : Shapes .expression size) :
    Shapes .dimension (.node .arrayDim [size])
  | unsized : Shapes .dimension (.node .arrayOpen [.empty])
  | variable {type name : Tree} {dims : List Tree} (htype : Shapes .typeName type)
    (hname : Shapes .name name) (hdims : ∀ t ∈ dims, Shapes .dimension t) :
    Shapes .variable (.node .variableDecl (type :: name :: dims))
  | bare {decl : Tree} (hdecl : Shapes .variable decl) : Shapes .declarator decl
  | initialized {decl init : Tree} (hdecl : Shapes .variable decl)
    (hinit : Shapes .expression init) : Shapes .declarator (.node .variableInit [decl, init])
  | single {decl : Tree} (hdecl : Shapes .declarator decl) : Shapes .declaration decl
  | several {first second : Tree} {rest : List Tree}
    (hdecls : ∀ t ∈ first :: second :: rest, Shapes .declarator t) :
    Shapes .declaration (.node .variablesDecl (first :: second :: rest))
  -- instructions
  | declare {decl : Tree} (hdecl : Shapes .declaration decl) : Shapes .instruction decl
  | evaluate {e : Tree} (he : Shapes .expression e) : Shapes .instruction e
  | break {token : Token} {slot : Nat} (htoken : token.isKeyword "break") :
    Shapes .instruction (.leaf token slot)
  | continue {token : Token} {slot : Nat} (htoken : token.isKeyword "continue") :
    Shapes .instruction (.leaf token slot)
  | returnNothing : Shapes .instruction (.node .returnFrom [.empty])
  | returnValue {value : Tree} (hvalue : Shapes .expression value) :
    Shapes .instruction (.node .returnFrom [value])
  | goto {name : Tree} (hname : Shapes .name name) : Shapes .instruction (.node .goTo [name])
  | omitted : Shapes .header .empty
  | given {instr : Tree} (hinstr : Shapes .instruction instr) : Shapes .header instr
  -- statements
  | emptyLine : Shapes .statement (.node .emptyLine [])
  | line {instr : Tree} (hinstr : Shapes .instruction instr) :
    Shapes .statement (.node .line [instr])
  | lines {first second : Tree} {rest : List Tree}
    (hinstrs : ∀ t ∈ first :: second :: rest, Shapes .instruction t) :
    Shapes .statement (.node .lines (first :: second :: rest))
  | ifBranch {cond body : Tree} (hcond : Shapes .expression cond) (hbody : Shapes .statement body) :
    Shapes .ifBranch (.node .ifBranch [cond, body])
  | elseIfBranch {cond body : Tree} (hcond : Shapes .expression cond)
    (hbody : Shapes .statement body) : Shapes .elseIfBranch (.node .elseIfBranch [cond, body])
  | elseBranch {body : Tree} (hbody : Shapes .statement body) :
    Shapes .elseBranch (.node .elseBranch [body])
  | ifChain {first : Tree} {rest : List Tree} (hfirst : Shapes .ifBranch first)
    (hrest : ∀ t ∈ rest, Shapes .elseIfBranch t) :
    Shapes .statement (.node .ifChain (first :: rest))
  | ifChainElse {first last : Tree} {rest : List Tree} (hfirst : Shapes .ifBranch first)
    (hrest : ∀ t ∈ rest, Shapes .elseIfBranch t) (hlast : Shapes .elseBranch last) :
    Shapes .statement (.node .ifChainElse (first :: (rest ++ [last])))
  | while {cond body : Tree} (hcond : Shapes .expression cond) (hbody : Shapes .statement body) :
    Shapes .statement (.node .whileLoop [cond, body])
  | doWhile {cond body : Tree} (hcond : Shapes .expression cond) (hbody : Shapes .statement body) :
    Shapes .statement (.node .doWhileLoop [cond, body])
  | for {init cond step body : Tree} (hinit : Shapes .header init) (hcond : Shapes .header cond)
    (hstep : Shapes .header step) (hbody : Shapes .statement body) :
    Shapes .statement (.node .forLoop [init, cond, step, body])
  | caseValue {value : Tree} (hvalue : Shapes .expression value) : Shapes .caseLabel value
  | default {token : Token} {slot : Nat} (htoken : token.isKeyword "default") :
    Shapes .caseLabel (.leaf token slot)
  | switchCase {label body : Tree} (hlabel : Shapes .caseLabel label) (hbody : Shapes .block body) :
    Shapes .switchCase (.node .switchCase [label, body])
  | cases {cases : List Tree} (hcases : ∀ t ∈ cases, Shapes .switchCase t)
    (hdefault : (cases.filterMap Rule.defaultOf?).length ≤ 1) : Shapes .cases (.node .cases cases)
  | switch {selector cases : Tree} (hselector : Shapes .expression selector)
    (hcases : Shapes .cases cases) : Shapes .statement (.node .switchOn [selector, cases])
  | block {parts : List Tree} (hparts : ∀ t ∈ parts, Shapes .part t) :
    Shapes .block (.node .block parts)
  | nested {body : Tree} (hbody : Shapes .block body) : Shapes .statement body
  | statement {body : Tree} (hbody : Shapes .statement body) : Shapes .part body
  | label {name : Tree} (hname : Shapes .name name) : Shapes .part (.node .jumpLabel [name])
  -- pieces of a program
  | directive {token : Token} {slot : Nat} (hkind : token.kind = .directive) :
    Shapes .item (.leaf token slot)
  | fields {fields : List Tree} (hfields : ∀ t ∈ fields, Shapes .variable t) :
    Shapes .fields (.node .structFields fields)
  | struct {name fields : Tree} (hname : Shapes .name name) (hfields : Shapes .fields fields) :
    Shapes .item (.node .structDecl [name, fields])
  | parameters {params : List Tree} (hparams : ∀ t ∈ params, Shapes .variable t) :
    Shapes .parameters (.node .functionParameters params)
  | function {type name params body : Tree} (htype : Shapes .typeName type)
    (hname : Shapes .name name) (hparams : Shapes .parameters params)
    (hbody : Shapes .block body) :
    Shapes .item (.node .functionDecl [type, name, params, body])
  | prototype {type name params : Tree} (htype : Shapes .typeName type)
    (hname : Shapes .name name) (hparams : Shapes .parameters params) :
    Shapes .item (.node .functionPrototype [type, name, params])
  | global {decl : Tree} (hdecl : Shapes .declaration decl) : Shapes .item decl
  | program {items : List Tree} (hitems : ∀ t ∈ items, Shapes .item t) :
    Shapes .program (.node .program items)

/-! ## The nodes of a tree -/

/-- Whether a tree is another one, or stands somewhere below it. -/
inductive Tree.Below : Tree → Tree → Prop
  | refl (t : Tree) : Below t t
  | child {s t : Tree} {label : Label} {children : List Tree} (hmem : t ∈ children)
    (hbelow : Below s t) : Below s (.node label children)

/-- The children of a node have forms of their own, but for pieces that are left out. -/
theorem Form.Shapes.forall_children {f : Form} {label : Label} {children : List Tree}
    (h : f.Shapes (.node label children)) :
    children.Forall fun t => t = .empty ∨ ∃ g : Form, g.Shapes t := by
  have hall {g : Form} {ts : List Tree} (h : ∀ t ∈ ts, g.Shapes t) :
      ts.Forall fun t => t = .empty ∨ ∃ g : Form, g.Shapes t :=
    List.forall_iff_forall_mem.mpr fun t ht => .inr ⟨g, h t ht⟩
  generalize ht : Tree.node label children = t at h
  induction h with
  | name | typeWord | typeWords | identifier | literal | «break» | «continue» | omitted | default
  | directive => cases ht
  -- Forms of forms are about the same node.
  | bare _ ih | single _ ih | declare _ ih | evaluate _ ih | given _ ih | caseValue _ ih
  | nested _ ih | statement _ ih | global _ ih => exact ih ht
  | unsized | returnNothing =>
    cases ht
    exact .inl rfl
  | emptyLine =>
    cases ht
    trivial
  | operand _ ha | sizeOf ha | list ha | sized ha | returnValue ha | goto ha | line ha
  | elseBranch ha | label ha =>
    cases ht
    exact .inr ⟨_, ha⟩
  | cast ha hb | binary _ ha hb | assignment _ ha hb | index ha hb | member ha hb | arrow ha hb
  | initialized ha hb | ifBranch ha hb | elseIfBranch ha hb | «while» ha hb | doWhile ha hb
  | switchCase ha hb | «switch» ha hb | struct ha hb =>
    cases ht
    exact ⟨.inr ⟨_, ha⟩, .inr ⟨_, hb⟩⟩
  | conditional ha hb hc | prototype ha hb hc =>
    cases ht
    exact ⟨.inr ⟨_, ha⟩, .inr ⟨_, hb⟩, .inr ⟨_, hc⟩⟩
  | «for» ha hb hc hd | function ha hb hc hd =>
    cases ht
    exact ⟨.inr ⟨_, ha⟩, .inr ⟨_, hb⟩, .inr ⟨_, hc⟩, .inr ⟨_, hd⟩⟩
  | values hts | several hts | lines hts | cases hts | block hts | fields hts | parameters hts
  | program hts =>
    cases ht
    exact hall hts
  | call ha hts | ifChain ha hts =>
    cases ht
    exact (List.forall_cons _ _ _).mpr ⟨.inr ⟨_, ha⟩, hall hts⟩
  | «variable» ha hb hts =>
    cases ht
    exact (List.forall_cons _ _ _).mpr
      ⟨.inr ⟨_, ha⟩, (List.forall_cons _ _ _).mpr ⟨.inr ⟨_, hb⟩, hall hts⟩⟩
  | ifChainElse ha hts hb =>
    cases ht
    exact (List.forall_cons _ _ _).mpr
      ⟨.inr ⟨_, ha⟩, List.forall_append.mpr ⟨hall hts, .inr ⟨_, hb⟩⟩⟩

/-- What is below a tree of a form has a form, too, or is a piece that is left out. -/
theorem Form.Shapes.of_below {s t : Tree} (hbelow : s.Below t) {f : Form} (h : f.Shapes t) :
    s = .empty ∨ ∃ g : Form, g.Shapes s := by
  induction hbelow generalizing f with
  | refl => exact .inr ⟨f, h⟩
  | child hmem hbelow ih =>
    obtain rfl | ⟨g, hg⟩ := List.forall_iff_forall_mem.mp h.forall_children _ hmem
    · cases hbelow
      exact .inl rfl
    · exact ih hg

/-- A wrapper has a child to be shown in its place. -/
theorem Form.Shapes.eq_singleton_of_isWrapper {f : Form} {label : Label} {children : List Tree}
    (h : f.Shapes (.node label children)) (hwrapper : label.isWrapper) :
    ∃ child, children = [child] := by
  generalize ht : Tree.node label children = t at h
  induction h with
  | operand | line =>
    cases ht
    exact ⟨_, rfl⟩
  | bare _ ih | single _ ih | declare _ ih | evaluate _ ih | given _ ih | caseValue _ ih
  | nested _ ih | statement _ ih | global _ ih => exact ih ht
  | _ => cases ht <;> cases hwrapper

/-! ## The numbers of the leaves -/

open MiniC.Tree in
theorem exists_of_mem_numberAllFrom {n : Nat} {ts : List Tree} {t : Tree}
    (h : t ∈ (numberFrom.numberAllFrom n ts).1) : ∃ m, ∃ t' ∈ ts, t = (t'.numberFrom m).1 := by
  induction ts generalizing n with
  | nil => cases h
  | cons t' rest ih =>
    rcases List.mem_cons.mp h with rfl | h
    · exact ⟨n, t', List.mem_cons_self, rfl⟩
    · obtain ⟨m, t'', ht'', rfl⟩ := ih h
      exact ⟨m, t'', List.mem_cons_of_mem _ ht'', rfl⟩

open MiniC.Tree in
/-- What is true of the numbered trees of a list. -/
theorem forall_mem_numberAllFrom {P : Tree → Prop} {ts : List Tree}
    (h : ∀ t ∈ ts, ∀ m, P (t.numberFrom m).1) (n : Nat) :
    ∀ t ∈ (numberFrom.numberAllFrom n ts).1, P t := by
  intro t ht
  obtain ⟨m, t', ht', rfl⟩ := exists_of_mem_numberAllFrom ht
  exact h t' ht' m

/-- Whether a case is a default case does not depend on the numbers of the leaves. -/
theorem defaultOf?_numberFrom (n : Nat) (t : Tree) :
    Rule.defaultOf? (t.numberFrom n).1 = Rule.defaultOf? t := by
  match t with
  | .empty | .leaf _ _ | .typeName _ _ | .group _ => rfl
  | .node label [] => cases label <;> rfl
  | .node label [a] | .node label [a, _] | .node label (a :: _ :: _ :: _) =>
    cases label <;> cases a <;> rfl

theorem filterMap_defaultOf?_numberAllFrom (n : Nat) (ts : List Tree) :
    (Tree.numberFrom.numberAllFrom n ts).1.filterMap Rule.defaultOf? =
      ts.filterMap Rule.defaultOf? := by
  induction ts generalizing n with
  | nil => rfl
  | cons t rest ih =>
    simp only [Tree.numberFrom.numberAllFrom, List.filterMap_cons, defaultOf?_numberFrom, ih]

theorem exists_numberAllFrom_concat (n : Nat) (ts : List Tree) (t : Tree) :
    ∃ m, (Tree.numberFrom.numberAllFrom n (ts ++ [t])).1 =
      (Tree.numberFrom.numberAllFrom n ts).1 ++ [(t.numberFrom m).1] := by
  induction ts generalizing n with
  | nil => exact ⟨n, rfl⟩
  | cons first rest ih =>
    obtain ⟨m, hm⟩ := ih (first.numberFrom n).2
    exact ⟨m, congrArg ((first.numberFrom n).1 :: ·) hm⟩

/-- A tree keeps its form when its leaves are numbered. -/
theorem Form.Shapes.numberFrom {f : Form} {t : Tree} (h : f.Shapes t) (n : Nat) :
    f.Shapes (t.numberFrom n).1 := by
  induction h generalizing n with
  | name h => exact .name h
  | typeWord hkind htext => exact .typeWord hkind htext
  | typeWords hkind htext => exact .typeWords hkind htext
  | identifier h => exact .identifier h
  | literal h => exact .literal h
  | operand hlabel _ he => exact .operand hlabel (he n)
  | sizeOf _ htype => exact .sizeOf (htype n)
  | cast _ _ htype he => exact .cast (htype n) (he _)
  | binary hop _ _ hleft hright => exact .binary hop (hleft n) (hright _)
  | assignment hop _ _ hleft hright => exact .assignment hop (hleft n) (hright _)
  | conditional _ _ _ hcond hfirst hsecond =>
    exact .conditional (hcond n) (hfirst _) (hsecond _)
  | call _ _ hcallee hargs => exact .call (hcallee n) (forall_mem_numberAllFrom hargs _)
  | index _ _ hbase hplace => exact .index (hbase n) (hplace _)
  | member _ _ he hfield => exact .member (he n) (hfield _)
  | arrow _ _ he hfield => exact .arrow (he n) (hfield _)
  | values _ hitems => exact .values (forall_mem_numberAllFrom hitems n)
  | list _ hvalues => exact .list (hvalues n)
  | sized _ hsize => exact .sized (hsize n)
  | unsized => exact .unsized
  | «variable» _ _ _ htype hname hdims =>
    exact .variable (htype n) (hname _) (forall_mem_numberAllFrom hdims _)
  | bare _ hdecl => exact .bare (hdecl n)
  | initialized _ _ hdecl hinit => exact .initialized (hdecl n) (hinit _)
  | single _ hdecl => exact .single (hdecl n)
  | several _ hdecls => exact .several (forall_mem_numberAllFrom hdecls n)
  | declare _ hdecl => exact .declare (hdecl n)
  | evaluate _ he => exact .evaluate (he n)
  | «break» h => exact .break h
  | «continue» h => exact .continue h
  | returnNothing => exact .returnNothing
  | returnValue _ hvalue => exact .returnValue (hvalue n)
  | goto _ hname => exact .goto (hname n)
  | omitted => exact .omitted
  | given _ hinstr => exact .given (hinstr n)
  | emptyLine => exact .emptyLine
  | line _ hinstr => exact .line (hinstr n)
  | lines _ hinstrs => exact .lines (forall_mem_numberAllFrom hinstrs n)
  | ifBranch _ _ hcond hbody => exact .ifBranch (hcond n) (hbody _)
  | elseIfBranch _ _ hcond hbody => exact .elseIfBranch (hcond n) (hbody _)
  | elseBranch _ hbody => exact .elseBranch (hbody n)
  | ifChain _ _ hfirst hrest => exact .ifChain (hfirst n) (forall_mem_numberAllFrom hrest _)
  | @ifChainElse first last rest _ _ _ hfirst hrest hlast =>
    obtain ⟨m, hm⟩ := exists_numberAllFrom_concat (first.numberFrom n).2 rest last
    have hrest := forall_mem_numberAllFrom hrest (first.numberFrom n).2
    have hchain := Form.Shapes.ifChainElse (hfirst n) hrest (hlast m)
    rw [← hm] at hchain
    exact hchain
  | «while» _ _ hcond hbody => exact .while (hcond n) (hbody _)
  | doWhile _ _ hcond hbody => exact .doWhile (hcond n) (hbody _)
  | «for» _ _ _ _ hinit hcond hstep hbody =>
    exact .for (hinit n) (hcond _) (hstep _) (hbody _)
  | caseValue _ hvalue => exact .caseValue (hvalue n)
  | default h => exact .default h
  | switchCase _ _ hlabel hbody => exact .switchCase (hlabel n) (hbody _)
  | cases _ hdefault hcases =>
    refine .cases (forall_mem_numberAllFrom hcases n) ?_
    rw [filterMap_defaultOf?_numberAllFrom]
    exact hdefault
  | «switch» _ _ hselector hcases => exact .switch (hselector n) (hcases _)
  | block _ hparts => exact .block (forall_mem_numberAllFrom hparts n)
  | nested _ hbody => exact .nested (hbody n)
  | statement _ hbody => exact .statement (hbody n)
  | label _ hname => exact .label (hname n)
  | directive h => exact .directive h
  | fields _ hfields => exact .fields (forall_mem_numberAllFrom hfields n)
  | struct _ _ hname hfields => exact .struct (hname n) (hfields _)
  | parameters _ hparams => exact .parameters (forall_mem_numberAllFrom hparams n)
  | function _ _ _ _ htype hname hparams hbody =>
    exact .function (htype n) (hname _) (hparams _) (hbody _)
  | prototype _ _ _ htype hname hparams => exact .prototype (htype n) (hname _) (hparams _)
  | global _ hdecl => exact .global (hdecl n)
  | program _ hitems => exact .program (forall_mem_numberAllFrom hitems n)

end MiniC
