import MiniC.Proofs.Parsing.Carried

set_option autoImplicit false

/-! # Type names and declarators

The trees of declarations, which are put together with more care than others. The words of a type
name and its pointer marks are one leaf, and they are no content. In a group of declarators the base
of the first type is repeated for each one, with the pointer marks of its own. -/

namespace MiniC

open Grammar Rule

/-! ## The form of trees -/

/-- Whether a tree is a type name that begins with a type keyword. -/
def IsType (tokens : Array Token) (tree : Tree) : Prop :=
  (∀ t ∈ tree.typeTokens, t ∈ tokens) ∧
    ∃ first rest, tree.typeTokens = first :: rest ∧ first.kind = .typeKeyword

/-- Whether a tree is a declaration of a variable. -/
def IsDecl (tokens : Array Token) (tree : Tree) : Prop :=
  ∃ type rest, tree = .node .variableDecl (type :: rest) ∧ IsType tokens type

/-- Whether a tree is a declaration of a variable, with its initializer or without. -/
def IsDeclarator (tokens : Array Token) (tree : Tree) : Prop :=
  IsDecl tokens tree ∨ ∃ decl init, tree = .node .variableInit [decl, init] ∧ IsDecl tokens decl

/-- Whether a tree is a declarator, or a group of declarators that begins with one, and covers the
tokens between two places. -/
def IsGroup (tokens : Array Token) (place : Nat) (tree : Tree) (next : Nat) : Prop :=
  ∃ first others, Covers tokens (first :: others) place next ∧ IsDeclarator tokens first ∧
    (tree = first ∧ others = [] ∨ tree = .node .variablesDecl (first :: others))

/-- Whether a tree lists pointer marks. -/
def IsMarks (tokens : Array Token) (tree : Tree) : Prop :=
  ∃ text marks, tree = .node (.word text) marks ∧
    ∀ mark ∈ marks, ∃ t ∈ tokens, t.isContent = false ∧ mark = .leaf t 0

theorem IsType.joinTypes {tokens : Array Token} {left right : Tree} (h : IsType tokens left)
    (hknown : ∀ t ∈ right.typeTokens, t ∈ tokens) : IsType tokens (Rule.joinTypes left right) := by
  obtain ⟨hleft, first, rest, hwords, hkind⟩ := h
  refine ⟨fun t ht => ?_, first, rest ++ right.typeTokens, ?_, hkind⟩
  · exact (List.mem_append.mp ht).elim (hleft t) (hknown t)
  · rw [Rule.joinTypes, Tree.typeTokens, hwords]
    rfl

/-! ## Declarators -/

theorem holds_withInitializer (decl init : Tree) :
    Holds (withInitializer decl init) [decl, init] := by
  cases init with
  | empty => exact ⟨by simp [withInitializer], by simp [withInitializer]⟩
  | _ => exact holds_node (by simp) _

theorem isDeclarator_withInitializer {tokens : Array Token} {decl : Tree}
    (h : IsDecl tokens decl) (init : Tree) : IsDeclarator tokens (withInitializer decl init) := by
  cases init with
  | empty => exact .inl h
  | _ => exact .inr ⟨decl, _, rfl, h⟩

/-- The words in front of the first pointer mark of a declaration are there, and begin with a type
keyword. -/
theorem exists_of_baseWords {tokens : Array Token} (hproper : ∀ t ∈ tokens, t.IsProper)
    {declarator : Tree} (h : IsDeclarator tokens declarator) :
    ∃ first rest, baseWords declarator = first :: rest ∧ first.isContent = false ∧
      ∀ t ∈ baseWords declarator, t ∈ tokens := by
  obtain ⟨type, htype, hwords⟩ : ∃ type, IsType tokens type ∧
      baseWords declarator = type.typeTokens.takeWhile fun t => t.text ≠ "*" := by
    obtain ⟨type, rest, rfl, htype⟩ | ⟨decl, init, rfl, type, rest, rfl, htype⟩ := h
    · exact ⟨type, htype, rfl⟩
    · exact ⟨type, htype, rfl⟩
  obtain ⟨hknown, first, rest, hfirst, hkind⟩ := htype
  have hstar : first.text ≠ "*" := fun htext => by
    have hpunctuator := hproper first (hknown first (by simp [hfirst])) (htext ▸ by decide)
    rw [hkind] at hpunctuator
    cases hpunctuator
  rw [hwords]
  refine ⟨first, rest.takeWhile fun t => t.text ≠ "*", ?_, isContent_of_typeKeyword hkind,
    fun t ht => hknown t ((List.takeWhile_sublist _).subset ht)⟩
  rw [hfirst, List.takeWhile_cons_of_pos (by simpa using hstar)]

theorem content_ofTypeTokens {first : Token} (h : first.isContent = false) (rest : List Token) :
    (Tree.ofTypeTokens (first :: rest)).content = [] := by
  cases rest with
  | nil => exact Tree.content_leaf_of_not_isContent h 0
  | cons second rest => rfl

theorem leaves_ofTypeTokens (words : List Token) : (Tree.ofTypeTokens words).leaves = [words] := by
  match words with
  | [] => rfl
  | [t] => rfl
  | _ :: _ :: _ => rfl

theorem addDeclarator_eq {tokens : Array Token} {tree first : Tree} {others : List Tree}
    (hfirst : IsDeclarator tokens first)
    (htree : tree = first ∧ others = [] ∨ tree = .node .variablesDecl (first :: others))
    (marks name dims init : Tree) :
    addDeclarator tree (.group [marks, name, dims, init]) =
      .node .variablesDecl (first :: others ++
        [withInitializer (.node .variableDecl
          (Tree.ofTypeTokens (baseWords first ++ marks.children.flatMap Tree.typeTokens) ::
            name :: dims.children)) init]) := by
  obtain ⟨rfl, rfl⟩ | rfl := htree
  · obtain ⟨type, rest, rfl, -⟩ | ⟨decl, init, rfl, -⟩ := hfirst <;> rfl
  · rfl

/-- A further declarator repeats the words of the type, which are no content, and has the pointer
marks among them. -/
theorem Covers.declarator {tokens : Array Token} {marks name init : Tree} {text : String}
    {dims : List Tree} {place next : Nat} {first : Token} {rest : List Token}
    (h : Covers tokens [marks, name, .node (.word text) dims, init] place next)
    (hmarks : IsMarks tokens marks) (hfirst : first.isContent = false)
    (hknown : ∀ t ∈ first :: rest, t ∈ tokens) :
    Covers tokens [withInitializer (.node .variableDecl
      (Tree.ofTypeTokens (first :: rest ++ marks.children.flatMap Tree.typeTokens) :: name :: dims))
      init] place next := by
  obtain ⟨text', marks, rfl, hmark⟩ := hmarks
  have hsilent : marks.flatMap Tree.content = [] := by
    rw [List.flatMap_eq_nil_iff]
    intro mark hmem
    obtain ⟨t, -, hcontent, rfl⟩ := hmark mark hmem
    exact Tree.content_leaf_of_not_isContent hcontent 0
  have hwords : ∀ t ∈ first :: rest ++ marks.flatMap Tree.typeTokens, t ∈ tokens := by
    intro t ht
    rcases List.mem_append.mp ht with ht | ht
    · exact hknown t ht
    · obtain ⟨mark, hmem, ht⟩ := List.mem_flatMap.mp ht
      obtain ⟨u, hu, -, rfl⟩ := hmark mark hmem
      exact List.mem_singleton.mp ht ▸ hu
  have hpieces : Covers tokens [.node .variableDecl
      (Tree.ofTypeTokens (first :: rest ++ marks.flatMap Tree.typeTokens) :: name :: dims), init]
      place next := {
    le := h.le
    content_eq := by
      rw [← h.content_eq]
      simp [content_ofTypeTokens hfirst, hsilent]
    known := by
      have hothers := h.known
      simp only [List.flatMap_cons, List.flatMap_nil, Tree.leaves_node, List.mem_append] at hothers
      simp only [List.flatMap_cons, List.flatMap_nil, Tree.leaves_node, List.mem_append,
        leaves_ofTypeTokens, List.mem_singleton]
      rintro leaf ((rfl | hleaf | hleaf) | hleaf | hleaf)
      · exact hwords
      all_goals exact hothers leaf (by simp [hleaf])
    not_afterStruct := h.not_afterStruct }
  exact hpieces.of_holds (holds_withInitializer _ _)

end MiniC
