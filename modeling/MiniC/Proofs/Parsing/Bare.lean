import MiniC.Language.Rules
import MiniC.Proofs.Lexing.Respelled
import MiniC.Proofs.Parsing.Content

set_option autoImplicit false

/-! # Trees without positions

A token without its position and its number is what the grammar looks at: the kind of the token and
its spelling. What the rules make of trees does not depend on more than that either, so that the
trees of two texts can be compared when the same words stand at different places in them. -/

namespace MiniC

namespace Token

/-- A token without its position and its number. -/
def bare (t : Token) : Token := { t.unplaced with id := 0 }

theorem kind_eq_of_bare {t u : Token} (h : t.bare = u.bare) : t.kind = u.kind :=
  congrArg (·.kind) h

theorem text_eq_of_bare {t u : Token} (h : t.bare = u.bare) : t.text = u.text :=
  congrArg (·.text) h

theorem isProper_of_bare {t u : Token} (h : t.bare = u.bare) (hproper : t.IsProper) :
    u.IsProper := by
  rw [IsProper, ← kind_eq_of_bare h, ← text_eq_of_bare h]
  exact hproper

end Token

namespace Tree

/-- A tree without the positions and numbers of its tokens and leaves. -/
def bare : Tree → Tree
  | .empty => .empty
  | .leaf token _ => .leaf token.bare 0
  | .typeName tokens _ => .typeName (tokens.map Token.bare) 0
  | .node label children => .node label (bareOf children)
  | .group children => .group (bareOf children)
where
  /-- Several trees without positions and numbers. -/
  bareOf : List Tree → List Tree
    | [] => []
    | t :: rest => t.bare :: bareOf rest

theorem bareOf_eq (trees : List Tree) : bare.bareOf trees = trees.map bare := by
  induction trees with
  | nil => rfl
  | cons t rest ih => rw [bare.bareOf, ih, List.map_cons]

@[simp] theorem bare_empty : empty.bare = empty := rfl

@[simp] theorem bare_leaf (t : Token) (slot : Nat) : (leaf t slot).bare = leaf t.bare 0 := rfl

@[simp] theorem bare_typeName (words : List Token) (slot : Nat) :
    (typeName words slot).bare = typeName (words.map Token.bare) 0 := rfl

@[simp] theorem bare_node (label : Label) (children : List Tree) :
    (node label children).bare = node label (children.map bare) := by
  rw [bare, bareOf_eq]

@[simp] theorem bare_group (children : List Tree) :
    (group children).bare = group (children.map bare) := by
  rw [bare, bareOf_eq]

theorem children_bare (t : Tree) : t.bare.children = t.children.map bare := by
  cases t with
  | node label children =>
    rw [bare_node]
    rfl
  | group children =>
    rw [bare_group]
    rfl
  | _ => rfl

theorem typeTokens_bare (t : Tree) : t.bare.typeTokens = t.typeTokens.map Token.bare := by
  cases t with
  | node label children =>
    rw [bare_node]
    rfl
  | group children =>
    rw [bare_group]
    rfl
  | _ => rfl

theorem bare_ofTypeTokens (words : List Token) :
    (ofTypeTokens words).bare = ofTypeTokens (words.map Token.bare) := by
  match words with
  | [] => rfl
  | [t] => rfl
  | _ :: _ :: _ => rfl

theorem typeTokens_ofTypeTokens (words : List Token) : (ofTypeTokens words).typeTokens = words := by
  match words with
  | [] => rfl
  | [t] => rfl
  | _ :: _ :: _ => rfl

/-- Only the numbers of leaves differ in a tree with numbers. -/
theorem bare_numberFrom (n : Nat) (t : Tree) : (t.numberFrom n).1.bare = t.bare := by
  induction n, t using numberFrom.induct
    (fun n ts => (numberFrom.numberAllFrom n ts).1.map bare = ts.map bare) with
  | case1 n => rfl
  | case2 n => rfl
  | case3 n => rfl
  | case4 n label children numbered next heq ih =>
    rw [heq] at ih
    simp only [numberFrom, heq, bare_node, ih]
  | case5 n => rfl
  | case6 n => rfl
  | case7 n t rest first next heq others last heq' ih ih' =>
    rw [heq] at ih
    rw [heq'] at ih'
    simp only [numberFrom.numberAllFrom, heq, heq', List.map_cons, ih, ih']

theorem bare_numbered (t : Tree) : t.numbered.bare = t.bare :=
  bare_numberFrom 0 t

end Tree

namespace Rule

/-! ## What the rules make of trees -/

/-- The rules of the language. -/
abbrev table (name : Rule) : Except ParseFailure G := .ok name.grammar

/-- Whether a tree that is made of others has the same form wherever their tokens stand. -/
def Natural (f : List Tree → Tree) : Prop :=
  ∀ trees, (f trees).bare = f (trees.map Tree.bare)

/-- Whether a tree that is made of two others has the same form wherever their tokens stand. -/
def NaturalPair (f : Tree → Tree → Tree) : Prop :=
  ∀ left right, (f left right).bare = f left.bare right.bare

theorem natural_pick (place : Nat) : Natural (pick place) := fun trees => by
  rw [pick, pick, List.getD, List.getD, List.getElem?_map]
  cases trees[place]? <;> rfl

theorem natural_nodeOf (label : Label) (places : List Nat) : Natural (nodeOf label places) :=
  fun trees => by
    rw [nodeOf, Tree.bare_node, List.map_map, nodeOf]
    exact congrArg _ (List.map_congr_left fun place _ => natural_pick place trees)

theorem natural_group : Natural Tree.group :=
  Tree.bare_group

theorem naturalPair_joinTypes : NaturalPair joinTypes := fun left right => by
  rw [joinTypes, joinTypes, Tree.bare_typeName, List.map_append, Tree.typeTokens_bare,
    Tree.typeTokens_bare]

theorem natural_structType : Natural fun trees => joinTypes (pick 0 trees) (pick 1 trees) :=
  fun trees => by
    rw [naturalPair_joinTypes, natural_pick, natural_pick]

theorem natural_assignment : Natural fun trees =>
    match pick 1 trees with
    | .leaf operator _ => .node (.word operator.text) [pick 0 trees, pick 2 trees]
    | _ => .empty := fun trees => by
  dsimp only
  rw [← natural_pick 1, ← natural_pick 0, ← natural_pick 2]
  cases pick 1 trees with
  | leaf operator slot => exact Tree.bare_node _ _
  | _ => simp

theorem natural_call : Natural fun trees =>
    .node .call (pick 0 trees :: (pick 2 trees).children) := fun trees => by
  dsimp only
  rw [← natural_pick 0, ← natural_pick 2, Tree.bare_node, List.map_cons, Tree.children_bare]

theorem natural_dimension : Natural dimension := fun trees => by
  rw [dimension, dimension, ← natural_pick 1]
  cases pick 1 trees <;> simp

theorem naturalPair_withInitializer : NaturalPair withInitializer := fun decl init => by
  cases init <;> simp [withInitializer]

theorem naturalPair_addDim : NaturalPair addDim := fun decl dim => by
  rw [addDim, addDim, Tree.bare_node, List.map_append, Tree.children_bare]
  rfl

theorem naturalPair_applyAccess : NaturalPair applyAccess := fun left access => by
  cases access <;> simp [applyAccess]

theorem naturalPair_mergeBinary : NaturalPair Grammar.mergeBinary := fun left right => by
  match right with
  | .group [.leaf operator slot, operand] =>
    rw [Grammar.mergeBinary, Tree.bare_node, Tree.bare_group]
    rfl
  | .group [.empty, _] | .group [.typeName _ _, _] | .group [.node _ _, _] | .group [.group _, _]
  | .group [] | .group [_] | .group (_ :: _ :: _ :: _)
  | .empty | .leaf _ _ | .typeName _ _ | .node _ _ => simp [Grammar.mergeBinary]

end Rule

end MiniC
