import MiniC.Ast.OfTree
import MiniC.Proofs.Shapes.Forms

set_option autoImplicit false

/-! # Trees of the right form stand for programs

A tree in which every node has the children that its label asks for can be read as a program. By
induction on the form of the tree, there is a part of a program for every part of the tree. -/

namespace MiniC

open Stmt.ofTree? (branches? cases?)

/-! ## Readings of several trees -/

theorem isSome_bind {α β : Type} {x : Option α} {f : α → Option β} (hx : x.isSome)
    (hf : ∀ a, (f a).isSome) : (x >>= f).isSome := by
  obtain ⟨a, rfl⟩ := Option.isSome_iff_exists.mp hx
  exact hf a

theorem isSome_map {α β : Type} {x : Option α} {f : α → β} (hx : x.isSome) : (x.map f).isSome :=
  Option.isSome_map.trans hx

theorem isSome_mapM {α : Type} {f : Tree → Option α} {ts : List Tree}
    (h : ∀ t ∈ ts, (f t).isSome) : (ts.mapM f).isSome := by
  induction ts with
  | nil => rfl
  | cons t rest ih =>
    rw [List.forall_mem_cons] at h
    rw [List.mapM_cons]
    exact isSome_bind h.1 fun _ => isSome_bind (ih h.2) fun _ => rfl

theorem Expr.isSome_ofTrees? {ts : List Tree} (h : ∀ t ∈ ts, (ofTree? t).isSome) :
    (ofTree?.ofTrees? ts).isSome := by
  induction ts with
  | nil => rfl
  | cons t rest ih =>
    rw [List.forall_mem_cons] at h
    exact isSome_bind h.1 fun _ => isSome_bind (ih h.2) fun _ => rfl

theorem Stmt.isSome_ofTrees? {ts : List Tree} (h : ∀ t ∈ ts, (ofTree? t).isSome) :
    (ofTree?.ofTrees? ts).isSome := by
  induction ts with
  | nil => rfl
  | cons t rest ih =>
    rw [List.forall_mem_cons] at h
    exact isSome_bind h.1 fun _ => isSome_bind (ih h.2) fun _ => rfl

/-! ## Readings of one tree -/

/-- Whether a tree can be read as what its form says. -/
def Form.Reads : Form → Tree → Prop
  | .name, t => (Leaf.ofTree? t).isSome
  | .typeName, t => (TypeName.ofTree? t).isSome
  | .expression, t => (Expr.ofTree? t).isSome
  | .values, t => (Expr.ofTree? (.node .initList [t])).isSome
  | .dimension, t => (Dim.ofTree? t).isSome
  | .variable, t => (Declarator.ofDecl? t).isSome ∧ (Declarator.ofTree? t).isSome
  | .declarator, t => (Declarator.ofTree? t).isSome
  | .declaration, t => (Declaration.ofTree? t).isSome
  | .instruction, t => (Instr.ofTree? t).isSome
  | .header, t => (Instr.ofOptional? t).isSome
  | .ifBranch, t | .elseIfBranch, t =>
    ∀ rest, (branches? rest).isSome → (branches? (t :: rest)).isSome
  | .elseBranch, t => (branches? [t]).isSome
  | .caseLabel, t => (caseLabel? t).isSome
  | .switchCase, t => ∀ rest, (cases? rest).isSome → (cases? (t :: rest)).isSome
  | .cases, t => ∃ parts, t = .node .cases parts ∧ (cases? parts).isSome
  | .block, t => ∃ parts, t = .node .block parts ∧ (Stmt.ofTree?.ofTrees? parts).isSome
  | .statement, t | .part, t => (Stmt.ofTree? t).isSome
  | .fields, t =>
    ∃ fields, t = .node .structFields fields ∧ (fields.mapM Declarator.ofTree?).isSome
  | .parameters, t =>
    ∃ params, t = .node .functionParameters params ∧ (params.mapM Declarator.ofTree?).isSome
  | .item, t => (Item.ofTree? t).isSome
  | .program, t => (Program.ofTree? t).isSome

/-! ### Expressions -/

theorem isSome_ofOne? : ∀ label ∈ operandLabels, ∀ e, (Expr.ofOne? label e).isSome := by
  simp [operandLabels, Expr.ofOne?, UnaryOp.ofLabel?, StepOp.ofLabel?]

theorem isSome_ofText? : ∀ op ∈ binaryOperators, (BinaryOp.ofText? op).isSome := by
  decide

theorem isSome_assignment? : ∀ op ∈ assignmentOperators, (assignment? op).isSome := by
  decide

theorem isSome_ofTwo?_binary {op : String} (hop : op ∈ binaryOperators) (left right : Expr) :
    (Expr.ofTwo? (.word op) left right).isSome := by
  obtain ⟨binary, h⟩ := Option.isSome_iff_exists.mp (isSome_ofText? op hop)
  simp [Expr.ofTwo?, h]

theorem isSome_ofTwo?_assignment {op : String} (hop : op ∈ assignmentOperators)
    (left right : Expr) : (Expr.ofTwo? (.word op) left right).isSome := by
  obtain ⟨assign, h⟩ := Option.isSome_iff_exists.mp (isSome_assignment? op hop)
  simp [Expr.ofTwo?, h]

theorem isSome_ofTree?_operand {label : Label} {t : Tree} (hlabel : label ∈ operandLabels)
    (ht : (Expr.ofTree? t).isSome) : (Expr.ofTree? (.node label [t])).isSome := by
  have hone : Expr.ofTree? (.node label [t]) = Expr.ofTree? t >>= Expr.ofOne? label := by
    simp only [operandLabels, List.mem_cons, List.not_mem_nil, or_false] at hlabel
    rcases hlabel with rfl | rfl | rfl | rfl | rfl | rfl | rfl | rfl | rfl | rfl | rfl <;> rfl
  rw [hone]
  exact isSome_bind ht (isSome_ofOne? label hlabel)

/-! ### Instructions -/

theorem Form.Shapes.exists_declaratorNode {t : Tree} (h : Form.declarator.Shapes t) :
    (∃ children, t = .node .variableDecl children) ∨
      ∃ children, t = .node .variableInit children := by
  cases h with
  | bare hdecl =>
    cases hdecl
    exact .inl ⟨_, rfl⟩
  | initialized _ _ => exact .inr ⟨_, rfl⟩

theorem Form.Shapes.exists_declarationNode {t : Tree} (h : Form.declaration.Shapes t) :
    (∃ children, t = .node .variableDecl children) ∨
      (∃ children, t = .node .variableInit children) ∨
        ∃ children, t = .node .variablesDecl children := by
  cases h with
  | single hdecl => exact hdecl.exists_declaratorNode.imp_right .inl
  | several _ => exact .inr (.inr ⟨_, rfl⟩)

/-- The labels of the nodes that are instructions and no expressions. -/
def instructionLabels : List Label :=
  [.returnFrom, .goTo, .variableDecl, .variableInit, .variablesDecl]

theorem Instr.ofTree?_node {label : Label} (hlabel : label ∉ instructionLabels)
    (children : List Tree) : Instr.ofTree? (.node label children) =
      (Expr.ofTree? (.node label children)).map .expr := by
  cases label <;> first | rfl | exact absurd (by decide) hlabel

theorem notMem_instructionLabels :
    ∀ label ∈ operandLabels, label ∉ instructionLabels := by
  decide

theorem Instr.isSome_ofTree?_expression {t : Tree} (hshape : Form.expression.Shapes t)
    (ht : (Expr.ofTree? t).isSome) : (Instr.ofTree? t).isSome := by
  cases hshape with
  | @identifier token slot _ | @literal token slot _ =>
    change (Instr.ofKeyword? token <|> (Expr.ofTree? (.leaf token slot)).map Instr.expr).isSome
    cases Instr.ofKeyword? token with
    | none => exact isSome_map ht
    | some i => rfl
  | operand hlabel _ =>
    rw [Instr.ofTree?_node (notMem_instructionLabels _ hlabel)]
    exact isSome_map ht
  | _ =>
    rw [Instr.ofTree?_node (by simp [instructionLabels])]
    exact isSome_map ht

theorem Instr.isSome_ofTree?_declaration {t : Tree} (hshape : Form.declaration.Shapes t)
    (ht : (Declaration.ofTree? t).isSome) : (Instr.ofTree? t).isSome := by
  have hdeclare : Instr.ofTree? t = (Declaration.ofTree? t).map .declare := by
    rcases hshape.exists_declarationNode with ⟨_, rfl⟩ | ⟨_, rfl⟩ | ⟨_, rfl⟩ <;> rfl
  rw [hdeclare]
  exact isSome_map ht

theorem Instr.isSome_ofOptional? {t : Tree} (ht : (Instr.ofTree? t).isSome) :
    (Instr.ofOptional? t).isSome := by
  cases t with
  | empty => rfl
  | _ => exact isSome_map (f := some) ht

theorem Instr.isSome_ofTree?_keyword {token : Token} {slot : Nat}
    (h : token.isKeyword "break" ∨ token.isKeyword "continue") :
    (Instr.ofTree? (.leaf token slot)).isSome := by
  have hkeyword : (ofKeyword? token).isSome := by
    unfold ofKeyword?
    split
    · rfl
    next hbreak =>
      rw [if_pos (h.resolve_left hbreak)]
      rfl
  change (ofKeyword? token <|> (Expr.ofTree? (.leaf token slot)).map Instr.expr).isSome
  simp [hkeyword]

/-! ### Declarations -/

theorem Declaration.isSome_ofTree?_single {t : Tree} (hshape : Form.declarator.Shapes t)
    (ht : (Declarator.ofTree? t).isSome) : (Declaration.ofTree? t).isSome := by
  have hsingle : Declaration.ofTree? t = Declarator.ofTree? t >>= fun d => some ⟨d, []⟩ := by
    rcases hshape.exists_declaratorNode with ⟨_, rfl⟩ | ⟨_, rfl⟩ <;> rfl
  rw [hsingle]
  exact isSome_bind ht fun _ => rfl

theorem Item.isSome_ofTree?_global {t : Tree} (hshape : Form.declaration.Shapes t)
    (ht : (Declaration.ofTree? t).isSome) : (Item.ofTree? t).isSome := by
  have hglobal : Item.ofTree? t = (Declaration.ofTree? t).map .declaration := by
    rcases hshape.exists_declarationNode with ⟨_, rfl⟩ | ⟨_, rfl⟩ | ⟨_, rfl⟩ <;> rfl
  rw [hglobal]
  exact isSome_map ht

/-! ### Statements -/

theorem isSome_branches? {ts tail : List Tree} (htail : (branches? tail).isSome)
    (h : ∀ t ∈ ts, ∀ rest, (branches? rest).isSome → (branches? (t :: rest)).isSome) :
    (branches? (ts ++ tail)).isSome := by
  induction ts with
  | nil => exact htail
  | cons t rest ih =>
    rw [List.forall_mem_cons] at h
    exact h.1 _ (ih h.2)

theorem isSome_cases? {ts : List Tree}
    (h : ∀ t ∈ ts, ∀ rest, (cases? rest).isSome → (cases? (t :: rest)).isSome) :
    (cases? ts).isSome := by
  induction ts with
  | nil => rfl
  | cons t rest ih =>
    rw [List.forall_mem_cons] at h
    exact h.1 _ (ih h.2)

theorem isSome_caseLabel? {t : Tree} (ht : (Expr.ofTree? t).isSome) : (caseLabel? t).isSome := by
  unfold caseLabel?
  split
  · split
    · rfl
    · exact isSome_map ht
  · exact isSome_map ht

/-! ### All forms -/

/-- A tree of a form can be read as what the form says. -/
theorem Form.Shapes.reads {f : Form} {t : Tree} (h : f.Shapes t) : f.Reads t := by
  induction h with
  | name _ => rfl
  | typeWord _ _ => rfl
  | typeWords _ _ => rfl
  | @identifier token slot hname =>
    have hkind : token.kind = .identifier := by simpa [Token.isIdentifier] using hname
    change (Expr.ofLeaf? ⟨token, slot⟩).isSome
    rw [Expr.ofLeaf?, hkind]
    rfl
  | @literal token slot hliteral =>
    change (Expr.ofLeaf? ⟨token, slot⟩).isSome
    rw [Expr.ofLeaf?]
    rw [Token.isLiteral] at hliteral
    cases hkind : token.kind with
    | literal kind => rfl
    | _ =>
      rw [hkind] at hliteral
      cases hliteral
  | operand hlabel _ he => exact isSome_ofTree?_operand hlabel he
  | sizeOf _ htype => exact isSome_map htype
  | cast _ _ htype he => exact isSome_bind htype fun _ => isSome_bind he fun _ => rfl
  | binary hop _ _ hleft hright =>
    exact isSome_bind hleft fun _ => isSome_bind hright fun _ => isSome_ofTwo?_binary hop _ _
  | assignment hop _ _ hleft hright =>
    exact isSome_bind hleft fun _ => isSome_bind hright fun _ => isSome_ofTwo?_assignment hop _ _
  | conditional _ _ _ hcond hfirst hsecond =>
    exact isSome_bind hcond fun _ => isSome_bind hfirst fun _ => isSome_bind hsecond fun _ => rfl
  | call _ _ hcallee hargs =>
    exact isSome_bind hcallee fun _ => isSome_bind (Expr.isSome_ofTrees? hargs) fun _ => rfl
  | index _ _ hbase hplace => exact isSome_bind hbase fun _ => isSome_bind hplace fun _ => rfl
  | member _ _ he hfield | arrow _ _ he hfield =>
    exact isSome_bind he fun _ => isSome_bind hfield fun _ => rfl
  | values _ hitems =>
    rw [List.forall_mem_cons] at hitems
    exact isSome_bind hitems.1 fun _ => isSome_bind (Expr.isSome_ofTrees? hitems.2) fun _ => rfl
  | list _ hvalues => exact hvalues
  | sized _ hsize => exact isSome_map hsize
  | unsized => rfl
  | «variable» _ _ _ htype hname hdims =>
    -- A declaration stands on its own or under an initializer, and is read alike in both places.
    have hdecl : (Declarator.ofDecl? (.node .variableDecl (_ :: _ :: _))).isSome :=
      isSome_bind htype fun _ => isSome_bind hname fun _ =>
        isSome_bind (isSome_mapM hdims) fun _ => rfl
    exact ⟨hdecl, hdecl⟩
  | bare _ hdecl => exact hdecl.2
  | initialized _ _ hdecl hinit =>
    exact isSome_bind hdecl.1 fun _ => isSome_bind hinit fun _ => rfl
  | single hshape hdecl => exact Declaration.isSome_ofTree?_single hshape hdecl
  | several _ hdecls =>
    rw [List.forall_mem_cons] at hdecls
    exact isSome_bind hdecls.1 fun _ => isSome_bind (isSome_mapM hdecls.2) fun _ => rfl
  | declare hshape hdecl => exact Instr.isSome_ofTree?_declaration hshape hdecl
  | evaluate hshape he => exact Instr.isSome_ofTree?_expression hshape he
  | «break» h => exact Instr.isSome_ofTree?_keyword (.inl h)
  | «continue» h => exact Instr.isSome_ofTree?_keyword (.inr h)
  | returnNothing => rfl
  | @returnValue value _ hvalue =>
    cases value with
    | empty => rfl
    | _ => exact isSome_map (f := fun e => Instr.return (some e)) hvalue
  | goto _ hname => exact isSome_map hname
  | omitted => rfl
  | given _ hinstr => exact Instr.isSome_ofOptional? hinstr
  | emptyLine => rfl
  | line _ hinstr => exact isSome_bind hinstr fun _ => rfl
  | lines _ hinstrs => exact isSome_bind (isSome_mapM hinstrs) fun _ => rfl
  | ifBranch _ _ hcond hbody | elseIfBranch _ _ hcond hbody =>
    exact fun rest hrest => isSome_bind hcond fun _ => isSome_bind hbody fun _ =>
      isSome_bind hrest fun _ => rfl
  | elseBranch _ hbody => exact isSome_bind hbody fun _ => rfl
  | @ifChain first rest _ _ hfirst hrest =>
    -- The branches of an `if` are read from the last one backwards, each with the rest of the chain
    -- at hand; a chain without `else` ends in nothing.
    have hbranches : (branches? (rest ++ [])).isSome := isSome_branches? rfl hrest
    rw [List.append_nil] at hbranches
    exact isSome_bind (hfirst _ hbranches) fun _ => rfl
  | ifChainElse _ _ _ hfirst hrest hlast =>
    exact isSome_bind (hfirst _ (isSome_branches? hlast hrest)) fun _ => rfl
  | «while» _ _ hcond hbody | doWhile _ _ hcond hbody =>
    exact isSome_bind hcond fun _ => isSome_bind hbody fun _ => rfl
  | «for» _ _ _ _ hinit hcond hstep hbody =>
    exact isSome_bind hinit fun _ => isSome_bind hcond fun _ => isSome_bind hstep fun _ =>
      isSome_bind hbody fun _ => rfl
  | caseValue _ hvalue => exact isSome_caseLabel? hvalue
  | default h =>
    change (if _ then _ else _ : Option (Option Expr)).isSome
    rw [if_pos h]
    rfl
  | switchCase _ _ hlabel hbody =>
    obtain ⟨parts, rfl, hparts⟩ := hbody
    exact fun rest hrest => isSome_bind hlabel fun _ => isSome_bind hparts fun _ =>
      isSome_bind hrest fun _ => rfl
  | cases _ _ hcases => exact ⟨_, rfl, isSome_cases? hcases⟩
  | «switch» _ _ hselector hcases =>
    obtain ⟨parts, rfl, hparts⟩ := hcases
    exact isSome_bind hselector fun _ => isSome_bind hparts fun _ => rfl
  | block _ hparts => exact ⟨_, rfl, Stmt.isSome_ofTrees? hparts⟩
  | nested _ hbody =>
    obtain ⟨parts, rfl, hparts⟩ := hbody
    exact isSome_bind hparts fun _ => rfl
  | statement _ hbody => exact hbody
  | label _ hname => exact isSome_map hname
  | directive h =>
    change (if _ then _ else _ : Option Item).isSome
    rw [if_pos h]
    rfl
  | fields _ hfields => exact ⟨_, rfl, isSome_mapM fun t ht => (hfields t ht).2⟩
  | struct _ _ hname hfields =>
    obtain ⟨fields, rfl, hfields⟩ := hfields
    exact isSome_bind hname fun _ => isSome_bind hfields fun _ => rfl
  | parameters _ hparams => exact ⟨_, rfl, isSome_mapM fun t ht => (hparams t ht).2⟩
  | function _ _ _ _ htype hname hparams hbody =>
    obtain ⟨params, rfl, hparams⟩ := hparams
    obtain ⟨parts, rfl, hparts⟩ := hbody
    exact isSome_bind htype fun _ => isSome_bind hname fun _ => isSome_bind hparams fun _ =>
      isSome_bind hparts fun _ => rfl
  | prototype _ _ _ htype hname hparams =>
    obtain ⟨params, rfl, hparams⟩ := hparams
    exact isSome_bind htype fun _ => isSome_bind hname fun _ => isSome_bind hparams fun _ => rfl
  | global hshape hdecl => exact Item.isSome_ofTree?_global hshape hdecl
  | program _ hitems => exact isSome_bind (isSome_mapM hitems) fun _ => rfl

end MiniC
