import MiniC.Language.Rules
import MiniC.Proofs.Lexing.Canonical
import MiniC.Proofs.Lexing.Partition
import MiniC.Proofs.Parsing.Matches

set_option autoImplicit false

/-! # The content of programs

What a parse has to keep: the tokens that say something by themselves, unlike the words and marks
that only hold a construct together. `content` lists them for a list of tokens, and `Tree.inOrder`
lists the tokens of a tree. A grammar carries its content (`Carries`) if the trees that it matches
have the content of the tokens that they were made of, and it skips it (`Skips`) if there is none.
There is one lemma for each way to put grammars together, and the way in which a sequence makes its
tree is compared with the steps that are kept (`Row`, `Holds`). -/

namespace MiniC

/-! ## Tokens -/

/-- Whether a token says something by itself: a literal, a directive, an identifier or one of the
keywords `break`, `continue` and `default`. -/
def Token.isContent (t : Token) : Bool :=
  t.isLiteral || t.kind = .directive || t.isIdentifier ||
    ["break", "continue", "default"].any fun text => t.isKeyword text

/-- Whether a token that is spelled like a separator or an operator is a punctuator. -/
def Token.IsProper (t : Token) : Prop :=
  t.text.toList ∈ separators.map ([·]) ++ operators → t.kind = .punctuator

instance (t : Token) : Decidable t.IsProper :=
  inferInstanceAs (Decidable (_ → _))

/-- A text that begins with a character of a class without separators and operators is none. -/
theorem not_mem_of_head {p : Char → Bool} {c : Char} {rest : List Char} (hc : p c = true)
    (hp : (separators ++ operators1).all (!p ·) = true) :
    c :: rest ∉ separators.map ([·]) ++ operators := by
  have hheads : ∀ op ∈ separators.map ([·]) ++ operators,
      op.headD ' ' ∈ separators ++ operators1 := by
    decide
  exact fun hmem => not_mem_of_class hc hp (hheads _ hmem)

theorem not_mem_of_quotedLexeme {kind : LiteralKind} {opening : Part} {parts : List Part} (c : Char)
    (mark : List Char) (hopening : opening.text.toList = c :: mark)
    (hc : ['L', '"', '\''].contains c) :
    (quotedLexeme kind opening parts).text.toList ∉ separators.map ([·]) ++ operators := by
  rw [quotedLexeme, String.toList_join, List.flatMap_map, List.flatMap_cons, hopening]
  exact not_mem_of_head hc rfl

/-- A lexeme that is spelled like a separator or an operator is a punctuator. -/
theorem ReadsPiece.kind_eq_punctuator {pos : Position} {c : Char} {rest : List Char} {l : Lexeme}
    {n : Nat} (h : ReadsPiece pos c rest (some l) n)
    (htext : l.text.toList ∈ separators.map ([·]) ++ operators) : l.kind = .punctuator := by
  cases h with
  | wide _ => exact absurd htext (not_mem_of_quotedLexeme 'L' ['"'] (by simp) rfl)
  | string _ => exact absurd htext (not_mem_of_quotedLexeme '"' [] (by simp) rfl)
  | char _ => exact absurd htext (not_mem_of_quotedLexeme '\'' [] (by simp) rfl)
  | number _ hread =>
    obtain ⟨d, body, htext', hdigit⟩ := (Number.canonical_of_read hread).exists_cons
    rw [String.toList_ofList, htext'] at htext
    exact absurd htext (not_mem_of_head hdigit rfl)
  | name hc _ =>
    rw [String.toList_ofList] at htext
    exact absurd htext (not_mem_of_head hc rfl)
  | directive rest =>
    obtain ⟨body, blanks, hbody, -, -⟩ := exists_trimEnd_directive (firstLine rest)
    rw [String.toList_ofList, hbody] at htext
    exact absurd htext (not_mem_of_head (p := (· = '#')) rfl rfl)
  | point _ => rfl
  | separator _ _ => rfl
  | operator _ _ => rfl

/-- The tokens of a source text that are spelled like separators or operators are punctuators. -/
theorem isProper_of_tokenize {source : String} {tokens : List Token}
    (h : tokenize source = .ok tokens) : ∀ t ∈ tokens, t.IsProper := by
  obtain ⟨ls, hscan, rfl⟩ := tokenize_eq_ok_iff.mp h
  have hlexemes := forall_of_scanFrom (fun _ _ _ _ _ => ReadsPiece.kind_eq_punctuator)
    (fun _ hl => absurd hl List.not_mem_nil) hscan
  intro t ht
  obtain ⟨l, hl, rfl⟩ := List.mem_map.mp ht
  exact hlexemes l hl

section

variable (tokens : Array Token)

/-- Whether the token in front of a place is the word `struct`. -/
def isAfterStruct : Nat → Bool
  | 0 => false
  | place + 1 => (tokens[place]?).any (·.isTypeKeyword "struct")

/-- Whether an identifier at a place is the tag of a struct in a type name: it stands behind
`struct`, and no fields follow. -/
def isTag (place : Nat) : Bool :=
  isAfterStruct tokens place && !Grammar.hasText tokens (place + 1) "\x7b"

/-- The token at a place, if it is content and no tag in a type name. -/
def contentAt? (place : Nat) : Option Token :=
  (tokens[place]?).filter fun t => t.isContent && !(t.isIdentifier && isTag tokens place)

/-- The content from a place on, up to the place `next`. -/
def contentBetween (place next : Nat) : List Token :=
  (List.range' place (next - place)).filterMap (contentAt? tokens)

end

/-- The tokens of a list that are content, except for tags in type names. -/
def content (tokens : List Token) : List Token :=
  (List.range tokens.length).filterMap (contentAt? tokens.toArray)

theorem content_eq (tokens : List Token) :
    content tokens = contentBetween tokens.toArray 0 tokens.length := by
  rw [content, contentBetween, Nat.sub_zero, List.range_eq_range']

/-! ## Trees -/

namespace Tree

/-- The tokens of the leaves that hold a single token, in the order of the source: a node for a
do-while lists its condition in front of its body. -/
def inOrder : Tree → List Token
  | .empty => []
  | .leaf token _ => [token]
  | .typeName _ _ => []
  | .node label children =>
    (if label = .doWhileLoop then (inOrderOf children).reverse else inOrderOf children).flatten
  | .group _ => []
where
  /-- The tokens of several trees, each in the order of the source. -/
  inOrderOf : List Tree → List (List Token)
    | [] => []
    | t :: rest => t.inOrder :: inOrderOf rest

/-- The content of a tree, in the order of the source. -/
def content (t : Tree) : List Token :=
  t.inOrder.filter Token.isContent

theorem inOrderOf_eq (trees : List Tree) : inOrder.inOrderOf trees = trees.map inOrder := by
  induction trees with
  | nil => rfl
  | cons t rest ih => rw [inOrder.inOrderOf, ih, List.map_cons]

theorem leavesOf_eq (trees : List Tree) : leaves.leavesOf trees = trees.flatMap leaves := by
  induction trees with
  | nil => rfl
  | cons t rest ih => rw [leaves.leavesOf, ih, List.flatMap_cons]

@[simp] theorem content_node {label : Label} (h : label ≠ .doWhileLoop) (children : List Tree) :
    (node label children).content = children.flatMap content := by
  rw [content, inOrder, if_neg h, inOrderOf_eq, ← List.flatMap_def, List.filter_flatMap]
  rfl

theorem content_doWhile (condition body : Tree) :
    (node .doWhileLoop [condition, body]).content = body.content ++ condition.content := by
  simp [content, inOrder, inOrder.inOrderOf]

@[simp] theorem leaves_node (label : Label) (children : List Tree) :
    (node label children).leaves = children.flatMap leaves := by
  rw [leaves, leavesOf_eq]

@[simp] theorem content_empty : (empty : Tree).content = [] := rfl

@[simp] theorem content_typeName (words : List Token) (slot : Nat) :
    (typeName words slot).content = [] := rfl

theorem content_leaf (t : Token) (slot : Nat) :
    (leaf t slot).content = if t.isContent then [t] else [] := by
  cases h : t.isContent <;> simp [content, inOrder, h]

theorem content_leaf_of_not_isContent {t : Token} (h : t.isContent = false) (slot : Nat) :
    (leaf t slot).content = [] := by
  rw [content_leaf, h, if_neg nofun]

theorem numberFrom_leaves (n : Nat) (t : Tree) :
    (t.numberFrom n).1.inOrder = t.inOrder ∧ (t.numberFrom n).1.leaves = t.leaves := by
  induction n, t using numberFrom.induct
    (fun n ts => inOrder.inOrderOf (numberFrom.numberAllFrom n ts).1 = inOrder.inOrderOf ts ∧
      leaves.leavesOf (numberFrom.numberAllFrom n ts).1 = leaves.leavesOf ts) with
  | case1 n => exact ⟨rfl, rfl⟩
  | case2 n => exact ⟨rfl, rfl⟩
  | case3 n => exact ⟨rfl, rfl⟩
  | case4 n label children numbered next heq ih =>
    rw [heq] at ih
    simp only [numberFrom, heq, inOrder, leaves, ih, and_self]
  | case5 n => exact ⟨rfl, rfl⟩
  | case6 n => exact ⟨rfl, rfl⟩
  | case7 n t rest first next heq others last heq' ih ih' =>
    rw [heq] at ih
    rw [heq'] at ih'
    simp only [numberFrom.numberAllFrom, heq, heq', inOrder.inOrderOf, leaves.leavesOf, ih, ih',
      and_self]

end Tree

/-- Whether a tree holds what several trees hold, in their order. -/
structure Holds (tree : Tree) (trees : List Tree) : Prop where
  content_eq : tree.content = trees.flatMap Tree.content
  leaves_subset : tree.leaves ⊆ trees.flatMap Tree.leaves

theorem holds_self (tree : Tree) : Holds tree [tree] where
  content_eq := (List.append_nil _).symm
  leaves_subset := by simp

theorem holds_node {label : Label} (h : label ≠ .doWhileLoop) (trees : List Tree) :
    Holds (.node label trees) trees where
  content_eq := Tree.content_node h trees
  leaves_subset := by simp

theorem holds_doWhile (condition body : Tree) :
    Holds (.node .doWhileLoop [condition, body]) [body, condition] where
  content_eq := by simp [Tree.content_doWhile]
  leaves_subset := by
    rw [Tree.leaves_node]
    intro words hwords
    simpa [or_comm] using hwords

/-! ## What a part of the tokens is made into -/

section

variable {tokens : Array Token}

/-- Whether trees are made of the tokens from a place on, up to the place `next`: they have their
content, all their tokens are there, and the last token is not the word `struct`. -/
structure Covers (tokens : Array Token) (trees : List Tree) (place next : Nat) : Prop where
  le : place ≤ next
  content_eq : trees.flatMap Tree.content = contentBetween tokens place next
  known : ∀ words ∈ trees.flatMap Tree.leaves, ∀ t ∈ words, t ∈ tokens
  not_afterStruct : isAfterStruct tokens next = false

theorem contentBetween_self (place : Nat) : contentBetween tokens place place = [] := by
  rw [contentBetween, Nat.sub_self]
  rfl

theorem contentBetween_succ (place : Nat) :
    contentBetween tokens place (place + 1) = (contentAt? tokens place).toList := by
  rw [contentBetween, Nat.add_sub_cancel_left]
  cases h : contentAt? tokens place <;> simp [h]

theorem contentBetween_append {place mid next : Nat} (h : place ≤ mid) (h' : mid ≤ next) :
    contentBetween tokens place next
      = contentBetween tokens place mid ++ contentBetween tokens mid next := by
  obtain ⟨count, rfl⟩ := Nat.exists_eq_add_of_le h
  obtain ⟨count', rfl⟩ := Nat.exists_eq_add_of_le h'
  rw [contentBetween, Nat.add_assoc, Nat.add_sub_cancel_left, ← List.range'_append_1,
    List.filterMap_append]
  simp only [contentBetween, Nat.add_sub_cancel_left, ← Nat.add_assoc]

theorem covers_nil {place : Nat} (h : isAfterStruct tokens place = false) :
    Covers tokens [] place place where
  le := Nat.le_refl place
  content_eq := (contentBetween_self place).symm
  known := by simp
  not_afterStruct := h

theorem Covers.append {trees trees' : List Tree} {place mid next : Nat}
    (h : Covers tokens trees place mid) (h' : Covers tokens trees' mid next) :
    Covers tokens (trees ++ trees') place next where
  le := Nat.le_trans h.le h'.le
  content_eq := by
    rw [List.flatMap_append, h.content_eq, h'.content_eq, ← contentBetween_append h.le h'.le]
  known := by
    intro words hwords
    rw [List.flatMap_append] at hwords
    exact (List.mem_append.mp hwords).elim (h.known words) (h'.known words)
  not_afterStruct := h'.not_afterStruct

theorem Covers.of_holds {tree : Tree} {trees : List Tree} {place next : Nat}
    (h : Covers tokens trees place next) (hholds : Holds tree trees) :
    Covers tokens [tree] place next where
  le := h.le
  content_eq := by
    rw [List.flatMap_singleton, hholds.content_eq]
    exact h.content_eq
  known := by
    intro words hwords
    rw [List.flatMap_singleton] at hwords
    exact h.known words (hholds.leaves_subset hwords)
  not_afterStruct := h.not_afterStruct

/-! ## Single tokens -/

theorem isTypeKeyword_of_ne {t : Token} (h : t.kind ≠ .typeKeyword) (text : String) :
    t.isTypeKeyword text = false := by
  simp [Token.isTypeKeyword, h]

/-- Whether a token may be dropped: it is no content, and no identifier behind it is a tag. -/
structure Token.IsSilent (t : Token) : Prop where
  not_content : t.isContent = false
  not_struct : t.isTypeKeyword "struct" = false

theorem Token.isSilent_of_punctuator {t : Token} (h : t.kind = .punctuator) : t.IsSilent := by
  constructor <;>
    simp [isContent, isLiteral, isIdentifier, isKeyword, isTypeKeyword, h, TokenKind.isLiteral]

theorem isContent_of_typeKeyword {t : Token} (h : t.kind = .typeKeyword) : t.isContent = false := by
  simp [Token.isContent, Token.isLiteral, Token.isIdentifier, Token.isKeyword, h,
    TokenKind.isLiteral]

theorem Token.isSilent_of_typeKeyword {text : String} (htext : text ≠ "struct") {t : Token}
    (ht : t.isTypeKeyword text = true) : t.IsSilent := by
  obtain ⟨hkind, rfl⟩ : t.kind = .typeKeyword ∧ t.text = text := by
    simpa [Token.isTypeKeyword] using ht
  exact ⟨isContent_of_typeKeyword hkind, by simp [Token.isTypeKeyword, htext]⟩

theorem contentAt?_of_not_isContent {place : Nat} {t : Token} (htoken : tokens[place]? = some t)
    (h : t.isContent = false) : contentAt? tokens place = none := by
  simp [contentAt?, htoken, h]

theorem isAfterStruct_succ {place : Nat} {t : Token} (htoken : tokens[place]? = some t) :
    isAfterStruct tokens (place + 1) = t.isTypeKeyword "struct" := by
  simp [isAfterStruct, htoken]

theorem covers_skipped {place : Nat} {t : Token} (htoken : tokens[place]? = some t)
    (hsilent : t.IsSilent) : Covers tokens [] place (place + 1) where
  le := Nat.le_succ place
  content_eq := by
    rw [contentBetween_succ, contentAt?_of_not_isContent htoken hsilent.not_content]
    rfl
  known := by simp
  not_afterStruct := (isAfterStruct_succ htoken).trans hsilent.not_struct

/-- A token that is no tag is kept by its leaf. -/
theorem covers_leaf {place : Nat} {t : Token} (htoken : tokens[place]? = some t)
    (htag : isTag tokens place = false) (hstruct : t.isTypeKeyword "struct" = false) :
    Covers tokens [.leaf t 0] place (place + 1) where
  le := Nat.le_succ place
  content_eq := by
    rw [contentBetween_succ, List.flatMap_singleton, Tree.content_leaf]
    cases h : t.isContent <;> simp [contentAt?, htoken, htag, h, Option.filter]
  known := by
    simpa [Tree.leaves] using Array.mem_of_getElem? htoken
  not_afterStruct := (isAfterStruct_succ htoken).trans hstruct

end

end MiniC
