import MiniC.Proofs.Outlines.Collapsible
import MiniC.Tree.Outline

set_option autoImplicit false

/-! # The collapsed outline

A tree is shown in rows, one for each tree in it that is not left out, from the top to the leaves.
The full outline has a line for each of them. The collapsed one has no lines for the wrappers, and
all other lines are further left, by as many levels as there are wrappers above. So the tokens are
the same in both, and in the same order. -/

namespace MiniC

namespace Tree

/-! ## Rows -/

/-- What is shown in a line of an outline: a tree, the number of nodes above it, and the number of
wrappers among these. -/
structure Row where
  depth : Nat
  wrappers : Nat
  tree : Tree

namespace Row

/-- The line of the full outline. -/
def line (r : Row) : String :=
  indented r.depth r.tree.title

/-- The line where the wrappers above it are not shown. -/
def raisedLine (r : Row) : String :=
  indented (r.depth - r.wrappers) r.tree.title

/-- Whether a node with the name of a wrapper is shown. -/
def isWrapper (r : Row) : Bool :=
  match r.tree with
  | .node label _ => Label.wrapperNames.contains label.text
  | _ => false

/-- The tokens whose texts are in the line. -/
def tokens (r : Row) : List Token :=
  r.tree.typeTokens

end Row

/-- The rows of a tree below a number of nodes and wrappers. -/
def rowsAt (depth wrappers : Nat) : Tree → List Row
  | .empty => []
  | .node label children =>
    let row : Row := ⟨depth, wrappers, .node label children⟩
    row :: rowsOf (depth + 1) (wrappers + row.isWrapper.toNat) children
  | t => [⟨depth, wrappers, t⟩]
where
  /-- The rows of several trees. -/
  rowsOf (depth wrappers : Nat) : List Tree → List Row
    | [] => []
    | t :: rest => t.rowsAt depth wrappers ++ rowsOf depth wrappers rest

/-- The rows of a whole tree. -/
def rows (t : Tree) : List Row :=
  t.rowsAt 0 0

theorem rowsOf_eq_flatMap (depth wrappers : Nat) (ts : List Tree) :
    rowsAt.rowsOf depth wrappers ts = ts.flatMap (rowsAt depth wrappers) := by
  induction ts with
  | nil => rfl
  | cons t rest ih => rw [rowsAt.rowsOf, ih, List.flatMap_cons]

theorem leavesOf_eq_flatMap (ts : List Tree) : leaves.leavesOf ts = ts.flatMap leaves := by
  induction ts with
  | nil => rfl
  | cons t rest ih => rw [leaves.leavesOf, ih, List.flatMap_cons]

/-! ## Lines -/

/-- The lines of a tree at a depth, none for a piece that is left out. -/
def shownAt (collapse : Bool) (depth : Nat) (t : Tree) : List String :=
  if t.isEmpty then [] else t.linesAt collapse depth

theorem linesOf_eq_flatMap (collapse : Bool) (depth : Nat) (ts : List Tree) :
    linesAt.linesOf collapse depth ts = ts.flatMap (shownAt collapse depth) := by
  induction ts with
  | nil => rfl
  | cons t rest ih => rw [linesAt.linesOf, ih, List.flatMap_cons, shownAt]

/-- A node that is not collapsed has a line, and the lines of its children are one level further
right. -/
theorem shownAt_node {collapse : Bool} {label : Label}
    (h : (collapse && label.isWrapper) = false) (depth : Nat) (children : List Tree) :
    shownAt collapse depth (.node label children)
      = indented depth label.text :: children.flatMap (shownAt collapse (depth + 1)) := by
  cases children with
  | nil => rfl
  | cons child rest =>
    simp only [shownAt, isEmpty, linesAt, h, Bool.false_eq_true, if_false, linesOf_eq_flatMap,
      List.flatMap_cons]

/-- A wrapper is shown as its child. -/
theorem shownAt_wrapper {label : Label} (hlabel : label.isWrapper) {child : Tree}
    (hne : child ≠ .empty) (depth : Nat) :
    shownAt true depth (.node label [child]) = shownAt true depth child := by
  cases child with
  | empty => exact absurd rfl hne
  | _ => simp [shownAt, isEmpty, linesAt, hlabel]

theorem toList_pushn (s : String) (c : Char) (n : Nat) :
    (s.pushn c n).toList = s.toList ++ List.replicate n c := by
  induction n with
  | zero => simp [String.pushn, Nat.repeat]
  | succ n ih =>
    simp only [String.pushn, Nat.repeat] at ih ⊢
    rw [String.toList_push, ih, List.replicate_succ', List.append_assoc]

/-- A line is moved right by as many levels as it is indented by once more. -/
theorem indented_indented (depth more : Nat) (line : String) :
    indented more (indented depth line) = indented (more + depth) line := by
  simp only [indented, String.ext_iff, String.toList_append, toList_pushn, ← List.append_assoc]
  simp [List.replicate_append_replicate, Nat.mul_add]

/-! ## The full outline -/

theorem shownAt_false (depth wrappers : Nat) (t : Tree) :
    t.shownAt false depth = (t.rowsAt depth wrappers).map Row.line := by
  match t with
  | .empty | .leaf _ _ | .typeName _ _ | .group _ => rfl
  | .node label children =>
    rw [shownAt_node rfl, rowsAt, rowsOf_eq_flatMap, List.map_cons, List.map_flatMap]
    exact congrArg _ (List.flatMap_congr fun t _ => shownAt_false _ _ t)

/-! ## The collapsed outline -/

/-- The collapsed outline has the rows that show no wrapper. Where `wrappers` of the nodes above a
tree are wrappers, the tree is shown at the depth that is left of them. -/
theorem Collapsible.shownAt_true {t : Tree} (h : t.Collapsible) (depth wrappers : Nat) :
    t.shownAt true depth =
      ((t.rowsAt (depth + wrappers) wrappers).filter (!·.isWrapper)).map Row.raisedLine := by
  induction h generalizing depth wrappers with
  | empty => rfl
  | leaf | typeName | group => simp [shownAt, isEmpty, linesAt, rowsAt, Row.isWrapper, Row.raisedLine]
  | @shown label children hlabel _ ih =>
    have hrow : Row.isWrapper ⟨depth + wrappers, wrappers, .node label children⟩ = false := by
      simpa [Row.isWrapper] using Label.not_mem_wrapperNames_of_isShown hlabel
    have hrest : children.flatMap (shownAt true (depth + 1))
        = ((rowsAt.rowsOf (depth + wrappers + 1) wrappers children).filter (!·.isWrapper)).map
          Row.raisedLine := by
      rw [rowsOf_eq_flatMap, List.filter_flatMap, List.map_flatMap]
      refine List.flatMap_congr fun t ht => ?_
      rw [ih t ht, Nat.add_right_comm]
    have hline : Row.raisedLine ⟨depth + wrappers, wrappers, .node label children⟩
        = indented depth label.text := by
      rw [Row.raisedLine, Nat.add_sub_cancel, title]
    rw [shownAt_node (by simpa using Label.not_isWrapper_of_isShown hlabel), hrest]
    simp only [rowsAt, hrow, List.filter_cons, Bool.not_false, if_true, Bool.toNat_false,
      Nat.add_zero, List.map_cons, hline]
  | @wrapper label child hlabel _ hne ih =>
    have hrow : Row.isWrapper ⟨depth + wrappers, wrappers, .node label [child]⟩ = true := by
      simpa [Row.isWrapper] using Label.mem_wrapperNames_of_isWrapper hlabel
    rw [shownAt_wrapper hlabel hne, ih depth (wrappers + 1)]
    simp only [rowsAt, rowsAt.rowsOf, hrow, List.filter_cons, Bool.not_true, Bool.false_eq_true,
      if_false, Bool.toNat_true, List.append_nil, Nat.add_assoc]

/-! ## What the rows show -/

/-- There are no more wrappers above a row than nodes. -/
theorem wrappers_le_depth (depth wrappers : Nat) (h : wrappers ≤ depth) (t : Tree) :
    ∀ r ∈ t.rowsAt depth wrappers, r.wrappers ≤ r.depth := by
  match t with
  | .empty => nofun
  | .leaf _ _ | .typeName _ _ | .group _ => exact List.forall_mem_singleton.mpr h
  | .node label children =>
    rw [rowsAt, rowsOf_eq_flatMap]
    refine List.forall_mem_cons.mpr ⟨h, fun r hr => ?_⟩
    obtain ⟨t, ht, hr⟩ := List.mem_flatMap.mp hr
    refine wrappers_le_depth _ _ ?_ t r hr
    have := Bool.toNat_le (Row.isWrapper ⟨depth, wrappers, .node label children⟩)
    omega

/-- The full line of a row is its line in the collapsed outline, moved right by a level for each
wrapper above it. -/
theorem Row.line_eq {r : Row} (h : r.wrappers ≤ r.depth) :
    r.line = indented r.wrappers r.raisedLine := by
  rw [line, raisedLine, indented_indented, Nat.add_sub_cancel' h]

/-- The tokens in the rows are those of the leaves. -/
theorem flatMap_tokens_rowsAt (depth wrappers : Nat) (t : Tree) :
    (t.rowsAt depth wrappers).flatMap Row.tokens = t.leaves.flatten := by
  match t with
  | .empty => rfl
  | .leaf _ _ | .typeName _ _ | .group _ => simp [rowsAt, leaves, Row.tokens, typeTokens]
  | .node label children =>
    have hnode : Row.tokens ⟨depth, wrappers, .node label children⟩ = [] := rfl
    rw [rowsAt, leaves, rowsOf_eq_flatMap, leavesOf_eq_flatMap, List.flatMap_cons, hnode,
      List.nil_append, List.flatMap_assoc, ← List.flatMap_id, List.flatMap_assoc]
    refine List.flatMap_congr fun t _ => ?_
    rw [flatMap_tokens_rowsAt, List.flatMap_id]

/-- No token is in the row of a wrapper. -/
theorem Row.tokens_eq_nil {r : Row} (h : r.isWrapper) : r.tokens = [] := by
  obtain ⟨depth, wrappers, tree⟩ := r
  cases tree with
  | node => rfl
  | _ => cases h

theorem flatMap_tokens_filter (rows : List Row) :
    (rows.filter (!·.isWrapper)).flatMap Row.tokens = rows.flatMap Row.tokens := by
  induction rows with
  | nil => rfl
  | cons r rows ih =>
    by_cases hr : r.isWrapper
    · simp [hr, ih, Row.tokens_eq_nil hr]
    · simp [hr, ih]

end Tree

/-! ## Parsed programs -/

/-- The collapsed outline of a parsed program is the full one without the lines of the nodes that
are called `(..)` or `Line ;`, where each line that stays is further left by as many levels as there
are such nodes above it. The tokens that the lines show are those of the leaves in both. -/
theorem outline_of_parseTree {tokens : List Token} {tree : Tree}
    (h : parseTree tokens = .ok tree) :
    tree.outline false = tree.rows.map Tree.Row.line ∧
    tree.outline true = (tree.rows.filter (!·.isWrapper)).map Tree.Row.raisedLine ∧
    (∀ r ∈ tree.rows, r.line = Tree.indented r.wrappers r.raisedLine) ∧
    tree.rows.flatMap Tree.Row.tokens = tree.leaves.flatten ∧
    (tree.rows.filter (!·.isWrapper)).flatMap Tree.Row.tokens = tree.leaves.flatten := by
  have htokens := tree.flatMap_tokens_rowsAt 0 0
  refine ⟨tree.shownAt_false 0 0, (collapsible_of_parseTree h).shownAt_true 0 0, fun r hr => ?_,
    htokens, (Tree.flatMap_tokens_filter tree.rows).trans htokens⟩
  exact r.line_eq (tree.wrappers_le_depth 0 0 (Nat.le_refl 0) r hr)

/-- The tokens of `int f(){(x);}`. -/
def wrappedTokens : List Token := [
  ⟨⟨.typeKeyword, "int", ⟨1, 1⟩, []⟩, 1⟩, ⟨⟨.identifier, "f", ⟨1, 5⟩, []⟩, 2⟩,
  ⟨⟨.punctuator, "(", ⟨1, 6⟩, []⟩, 3⟩, ⟨⟨.punctuator, ")", ⟨1, 7⟩, []⟩, 4⟩,
  ⟨⟨.punctuator, "\x7b", ⟨1, 8⟩, []⟩, 5⟩, ⟨⟨.punctuator, "(", ⟨1, 9⟩, []⟩, 3⟩,
  ⟨⟨.identifier, "x", ⟨1, 10⟩, []⟩, 6⟩, ⟨⟨.punctuator, ")", ⟨1, 11⟩, []⟩, 4⟩,
  ⟨⟨.punctuator, ";", ⟨1, 12⟩, []⟩, 7⟩, ⟨⟨.punctuator, "\x7d", ⟨1, 13⟩, []⟩, 8⟩]

/-- The tree of these tokens, whose leaves have no numbers yet. -/
def wrappedTree : Tree :=
  let leaf (place : Nat) : Tree := .leaf (wrappedTokens.getD place default) 0
  .node .program [.node .functionDecl [leaf 0, leaf 1, .node .functionParameters [],
    .node .block [.node .line [.node .parens [leaf 6]]]]]

/-- There are two wrappers above the line of `x`. -/
theorem outline_of_parseTree_wrapped :
    parseTree wrappedTokens = .ok wrappedTree.numbered ∧
    wrappedTree.numbered.outline true = ["Program", "  Function declaration", "    int", "    f",
      "    Function parameters", "    Block of code", "      x"] ∧
    wrappedTree.numbered.outline true =
      (wrappedTree.numbered.rows.filter (!·.isWrapper)).map Tree.Row.raisedLine := by
  have htree : parseTree wrappedTokens = .ok wrappedTree.numbered := parseTree_of_plain (by rfl)
  obtain ⟨-, hcollapsed, -⟩ := outline_of_parseTree htree
  exact ⟨htree, by decide +kernel, hcollapsed⟩

end MiniC
