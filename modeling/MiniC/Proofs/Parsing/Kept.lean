import MiniC.Proofs.Parsing.Declarators
import MiniC.Proofs.Parsing.Termination

set_option autoImplicit false

/-! # Nothing is lost in a tree

A parse neither drops nor repeats what a program says. For each rule of the language there is one
lemma on what its trees keep of the tokens (`Rule.Keeps`), where all other rules keep what they have
to; most rules carry their content, and a few are also known by the form of their trees, because the
rules that name them take these trees apart. By induction on the fuel of a parse, all rules keep
what they have to, and the main statement is what the rule for programs keeps of a whole list of
tokens. -/

namespace MiniC

open Grammar Rule

/-- What a tree that a rule matches keeps of the tokens that it is made of. -/
def Rule.Keeps (tokens : Array Token) (tree : Tree) (place next : Nat) : Rule → Prop
  | .typeName | .structType => TypeWords tokens tree place next ∧ IsType tokens tree
  | .variableDecl => Covers tokens [tree] place next ∧ IsDecl tokens tree
  | .pointerMarks => Covers tokens [tree] place next ∧ IsMarks tokens tree
  | .arrayDims => Covers tokens [tree] place next ∧ ∃ text dims, tree = .node (.word text) dims
  | .access => Covers tokens [tree] place next ∧
      ∃ label part, label ≠ .doWhileLoop ∧ tree = .node label [part]
  | _ => Covers tokens [tree] place next

/-- Matches over proper tokens, where all rules keep what they have to. -/
structure Keeping (tokens : Array Token) (M : G → Nat → Tree → Nat → Prop) : Prop where
  unfolds : Unfolds (fun name => .ok (Rule.grammar name)) tokens M
  proper : ∀ t ∈ tokens, t.IsProper
  rule (name : Rule) (place : Nat) (tree : Tree) (next : Nat)
    (hplace : isAfterStruct tokens place = false) (h : M (.rule name) place tree next) :
    name.Keeps tokens tree place next

namespace Keeping

variable {tokens : Array Token} {M : G → Nat → Tree → Nat → Prop} (h : Keeping tokens M)

include h

/-! ## Tokens -/

theorem skips_punct (text : String) : Skips tokens M (punct text) :=
  skips_token h.unfolds fun t ht => Token.isSilent_of_punctuator (by simp_all [Token.isPunctuator])

theorem skips_punctOf (texts : List String) : Skips tokens M (punctOf texts) :=
  skips_token h.unfolds fun t ht => Token.isSilent_of_punctuator (by simp_all)

theorem skips_word {text : String} (htext : text ∉ ["break", "continue", "default"]) :
    Skips tokens M (word text) :=
  skips_token h.unfolds fun t ht => by
    obtain ⟨hkind, rfl⟩ : t.kind = .keyword ∧ t.text = text := by simpa [Token.isKeyword] using ht
    constructor <;>
      simp_all [Token.isContent, Token.isLiteral, TokenKind.isLiteral, Token.isIdentifier,
        Token.isKeyword, Token.isTypeKeyword]

theorem skips_typeWord {text : String} (htext : text ≠ "struct") :
    Skips tokens M (typeWord text) :=
  skips_token h.unfolds fun _ ht => Token.isSilent_of_typeKeyword htext ht

theorem carries_word (text : String) : Carries tokens M (word text) :=
  carries_token h.unfolds fun t ht => by simp_all [Token.isKeyword, Token.isTypeKeyword]

theorem carries_identifier : Carries tokens M identifier :=
  carries_token h.unfolds fun t ht => by simp_all [Token.isIdentifier, Token.isTypeKeyword]

theorem carries_literal : Carries tokens M literal :=
  carries_token h.unfolds fun t ht => isTypeKeyword_of_ne (fun hkind => by
    simp [Token.isLiteral, TokenKind.isLiteral, hkind] at ht) _

theorem carries_directive : Carries tokens M directive :=
  carries_token h.unfolds fun t ht => by simp_all [Token.isTypeKeyword]

/-! ## Sequences -/

theorem exists_of_matches_seq {steps : List (Step G)} {f : List Tree → Tree} {place next : Nat}
    {tree : Tree} (hmatch : M (seq steps f) place tree next) :
    ∃ trees, MatchesSteps M steps place trees next ∧ tree = f trees := by
  cases h.unfolds _ _ _ _ hmatch with
  | sequence hsteps hmerge =>
    cases hmerge
    exact ⟨_, hsteps, rfl⟩

theorem carries_seq {steps : List (Step G)} {f : List Tree → Tree} {kept : List Nat}
    (hrow : Row tokens M 0 steps kept)
    (hholds : ∀ {place trees next}, MatchesSteps M steps place trees next →
      Holds (f trees) (picked kept trees)) : Carries tokens M (seq steps f) :=
  carries_sequence h.unfolds hrow fun hsteps hmerge => by
    cases hmerge
    exact hholds hsteps

theorem carries_nodeOf {steps : List (Step G)} {label : Label} {kept : List Nat}
    (hlabel : label ≠ .doWhileLoop) (hrow : Row tokens M 0 steps kept) :
    Carries tokens M (seq steps (nodeOf label kept)) :=
  h.carries_seq hrow fun _ => holds_node hlabel _

theorem carries_pick {steps : List (Step G)} {place : Nat} (hrow : Row tokens M 0 steps [place]) :
    Carries tokens M (seq steps (pick place)) :=
  h.carries_seq hrow fun _ => holds_self _

theorem carries_many {element : G} {label : Label} (helement : Carries tokens M element)
    (hlabel : label ≠ .doWhileLoop) : Carries tokens M (many element label) :=
  helement.items h.unfolds h.proper hlabel rfl

/-! ## Type names -/

theorem hasText_of_identifier (place : Nat) (tree : Tree) (next : Nat)
    (hmatch : M identifier place tree next) : hasText tokens place "\x7b" = false := by
  obtain ⟨t, htoken, ht, -, -⟩ := exists_of_matches_token h.unfolds hmatch
  have hkind : t.kind = .identifier := by simpa [Token.isIdentifier] using ht
  exact hasText_of_kind h.proper htoken (by simp [hkind])

theorem hasText_of_punct {text : String} (htext : text ≠ "\x7b") (place : Nat) (tree : Tree)
    (next : Nat) (hmatch : M (punct text) place tree next) :
    hasText tokens place "\x7b" = false := by
  obtain ⟨t, htoken, ht, -, -⟩ := exists_of_matches_token h.unfolds hmatch
  obtain ⟨-, rfl⟩ : t.kind = .punctuator ∧ t.text = text := by simpa [Token.isPunctuator] using ht
  simpa [hasText, htoken] using htext

theorem typeWords_simpleType {place next : Nat} {tree : Tree}
    (hmatch : M simpleType place tree next) :
    TypeWords tokens tree place next ∧ IsType tokens tree := by
  obtain ⟨t, htoken, ht, rfl, rfl⟩ := exists_of_matches_token h.unfolds hmatch
  obtain ⟨hkind, htext⟩ : t.kind = .typeKeyword ∧ t.text ≠ "struct" := by simpa using ht
  have hmem : ∀ u ∈ (Tree.leaf t 0).typeTokens, u ∈ tokens := by
    simpa [Tree.typeTokens] using Array.mem_of_getElem? htoken
  refine ⟨?_, hmem, t, [], rfl, hkind⟩
  exact .of_token htoken (hasText_of_kind h.proper htoken (by simp [hkind]))
    ⟨isContent_of_typeKeyword hkind, by simp [Token.isTypeKeyword, htext]⟩

theorem typeWords_star {place next : Nat} {tree : Tree} (hmatch : M (punct "*") place tree next) :
    TypeWords tokens tree place next := by
  have hbrace := h.hasText_of_punct (by decide) _ _ _ hmatch
  obtain ⟨t, htoken, ht, rfl, rfl⟩ := exists_of_matches_token h.unfolds hmatch
  exact .of_token htoken hbrace
    (Token.isSilent_of_punctuator (by simp_all [Token.isPunctuator]))

theorem keeps_structType {place next : Nat} {tree : Tree}
    (hmatch : M (Rule.grammar .structType) place tree next) :
    TypeWords tokens tree place next ∧ IsType tokens tree := by
  cases h.unfolds _ _ _ _ hmatch with
  | sequence hsteps hmerge =>
    cases hmerge
    cases hsteps with
    | cons hword hrest =>
    cases hrest with
    | cons htag hnil =>
    cases hnil
    obtain ⟨t, htoken, ht, rfl, rfl⟩ := exists_of_matches_token h.unfolds hword
    obtain ⟨u, htoken', hu, rfl, rfl⟩ := exists_of_matches_token h.unfolds htag
    have hkind : t.kind = .typeKeyword := by simp_all [Token.isTypeKeyword]
    have hkind' : u.kind = .identifier := by simpa [Token.isIdentifier] using hu
    have hmem : ∀ w ∈ [t, u], w ∈ tokens := by
      simp [Array.mem_of_getElem? htoken, Array.mem_of_getElem? htoken']
    refine ⟨?_, hmem, t, [u], rfl, hkind⟩
    exact {
      le := by omega
      starts := hasText_of_kind h.proper htoken (by simp [hkind])
      content_eq := fun hnext => by
        have htag : isTag tokens (place + 1) = true := by
          rw [isTag, isAfterStruct_succ htoken, ht, hnext]
          rfl
        have hcontent : contentAt? tokens (place + 1) = none := by
          simp [contentAt?, htoken', htag, Token.isIdentifier, hkind', Option.filter]
        rw [contentBetween_append (Nat.le_succ place) (Nat.le_succ _), contentBetween_succ,
          contentBetween_succ, hcontent,
          contentAt?_of_not_isContent htoken (isContent_of_typeKeyword hkind)]
        rfl
      content_tree := rfl
      leaves_eq := rfl
      known := hmem
      not_afterStruct := (isAfterStruct_succ htoken').trans
        (isTypeKeyword_of_ne (by simp [hkind']) _) }

theorem keeps_typeName {place next : Nat} {tree : Tree}
    (hplace : isAfterStruct tokens place = false)
    (hmatch : M (Rule.grammar .typeName) place tree next) :
    TypeWords tokens tree place next ∧ IsType tokens tree := by
  refine fold_induction h.unfolds
    (J := fun tree mid => TypeWords tokens tree place mid ∧ IsType tokens tree) ?_ ?_ hmatch
  · intro tree mid hfirst
    cases h.unfolds _ _ _ _ hfirst with
    | first htree => exact h.rule .structType _ _ _ hplace htree
    | second htree => exact h.typeWords_simpleType htree
  · intro tree mid piece mid' htree hpiece
    have hwords : TypeWords tokens piece mid mid' := by
      cases h.unfolds _ _ _ _ hpiece with
      | first hpiece =>
        cases h.unfolds _ _ _ _ hpiece with
        | first hpiece => exact (h.rule .structType _ _ _ htree.1.not_afterStruct hpiece).1
        | second hpiece => exact (h.typeWords_simpleType hpiece).1
      | second hpiece => exact h.typeWords_star hpiece
    exact ⟨htree.1.joinTypes hwords, htree.2.joinTypes hwords.known⟩

theorem typeWords_of_typeName (place : Nat) (tree : Tree) (next : Nat)
    (hplace : isAfterStruct tokens place = false) (hmatch : M (.rule .typeName) place tree next) :
    TypeWords tokens tree place next :=
  (h.rule .typeName place tree next hplace hmatch).1

/-! ## Expressions -/

theorem carries_optional {g : G} (hg : Carries tokens M g) : Carries tokens M (.choice g .empty) :=
  hg.choice h.unfolds (carries_empty h.unfolds)

theorem carries_expression : Carries tokens M (Rule.grammar .expression) :=
  .oneOf h.unfolds (h.rule .assignment)
    ⟨h.rule .ternary,
     .block h.unfolds h.proper
      (.items h.unfolds h.proper (h.rule .expression) (by simp) (by decide)) (by simp) (by decide)
      (by decide)⟩

theorem carries_assignment : Carries tokens M (Rule.grammar .assignment) := by
  refine h.carries_seq
    (.keep (.choice h.unfolds (h.rule .indirection) (h.rule .lvalue)) <|
     .skip (h.skips_punctOf _) <| .keep (h.rule .expression) <| .nil 3) fun hsteps => ?_
  -- the operator becomes the label of the node
  obtain ⟨start, stop, hoperator⟩ := hsteps.pick 1 rfl
  obtain ⟨t, -, -, hleaf, -⟩ := exists_of_matches_token h.unfolds hoperator
  rw [hleaf]
  exact holds_node (by simp) _

theorem carries_ternary : Carries tokens M (Rule.grammar .ternary) :=
  .choice h.unfolds
    (h.carries_nodeOf (by simp) <|
      .keep (h.rule .flat) <| .skip (h.skips_punct _) <| .keep (h.rule .expression) <|
      .skip (h.skips_punct _) <| .keep (h.rule .ternary) <| .nil 5)
    (h.rule .flat)

theorem carries_level {operand : Rule} (operators : List String)
    (hoperand : Carries tokens M (.rule operand)) : Carries tokens M (level operand operators) :=
  .choice h.unfolds (.binary h.unfolds hoperand hoperand fun t ht => by simp_all) hoperand

theorem carries_prefixed {operator : String} {operand : Rule} {label : Label}
    (hoperand : Carries tokens M (.rule operand)) (hlabel : label ≠ .doWhileLoop)
    (hmark : IsMark operator) : Carries tokens M (.prefixed operator (.rule operand) label) :=
  hoperand.prefixed h.unfolds h.proper hlabel hmark

theorem carries_unary : Carries tokens M (Rule.grammar .unary) :=
  .oneOf h.unfolds (h.carries_prefixed (h.rule .lvalue) (by simp) (by decide))
    ⟨h.carries_prefixed (h.rule .lvalue) (by simp) (by decide),
     h.carries_prefixed (h.rule .unary) (by simp) (by decide),
     h.carries_prefixed (h.rule .unary) (by simp) (by decide),
     h.rule .indirection,
     h.carries_prefixed (h.rule .unary) (by simp) (by decide),
     h.carries_prefixed (h.rule .unary) (by simp) (by decide),
     h.carries_prefixed (h.rule .unary) (by simp) (by decide),
     h.carries_nodeOf (by simp) <|
      .skip (h.skips_word (by decide)) <| .skip (h.skips_punct _) <|
      .type h.typeWords_of_typeName (h.hasText_of_punct (by decide)) <|
      .skip (h.skips_punct _) <| .nil 4,
     h.carries_nodeOf (by simp) <|
      .skip (h.skips_punct _) <|
      .type h.typeWords_of_typeName (h.hasText_of_punct (by decide)) <|
      .skip (h.skips_punct _) <| .keep (h.rule .unary) <| .nil 4,
     h.rule .postfixed⟩

theorem carries_call : Carries tokens M
    (seq [(Grammar.rule rvalue).step, (punct "(").step,
        (Grammar.items (.rule .expression) (.word "Function call args") (some ",") true).step,
        (punct ")").orFail "Invalid function call: ')' is missed."]
      fun trees => .node .call (pick 0 trees :: (pick 2 trees).children)) := by
  refine h.carries_seq
    (.keep (h.rule .rvalue) <| .skip (h.skips_punct _) <|
     .keep (.items h.unfolds h.proper (h.rule .expression) (by simp) (by decide)) <|
     .skip (h.skips_punct _) <| .nil 4) fun hsteps => ?_
  obtain ⟨start, stop, hargs⟩ := hsteps.pick 2 rfl
  obtain ⟨args, htree, -⟩ := exists_of_matches_items h.unfolds hargs
  simp only [picked, List.map_cons, List.map_nil, htree]
  exact ⟨by simp [Tree.children], by simp [Tree.children]⟩

theorem carries_postfixed : Carries tokens M (Rule.grammar .postfixed) :=
  .oneOf h.unfolds (.suffixed h.unfolds h.proper (h.rule .lvalue) (by simp) (by decide))
    ⟨.suffixed h.unfolds h.proper (h.rule .lvalue) (by simp) (by decide), h.carries_call,
     h.rule .rvalue⟩

theorem carries_rvalue : Carries tokens M (Rule.grammar .rvalue) :=
  .oneOf h.unfolds (h.rule .lvalue) ⟨h.rule .parens, h.carries_literal⟩

theorem keeps_nodeOf {steps : List (Step G)} {label : Label} {kept place next : Nat} {tree : Tree}
    (hlabel : label ≠ .doWhileLoop) (hrow : Row tokens M 0 steps [kept])
    (hplace : isAfterStruct tokens place = false)
    (hmatch : M (seq steps (nodeOf label [kept])) place tree next) :
    Covers tokens [tree] place next ∧
      ∃ label part, label ≠ .doWhileLoop ∧ tree = .node label [part] := by
  refine ⟨h.carries_nodeOf hlabel hrow _ _ _ hplace hmatch, ?_⟩
  obtain ⟨trees, -, rfl⟩ := h.exists_of_matches_seq hmatch
  exact ⟨label, _, hlabel, rfl⟩

theorem keeps_access {place next : Nat} {tree : Tree} (hplace : isAfterStruct tokens place = false)
    (hmatch : M (Rule.grammar .access) place tree next) :
    Covers tokens [tree] place next ∧
      ∃ label part, label ≠ .doWhileLoop ∧ tree = .node label [part] := by
  have hmember (text : String) (message : Option String) :
      Row tokens M 0 [(punct text).step, ⟨identifier, message⟩] [1] :=
    .skip (h.skips_punct text) <| .keep h.carries_identifier <| .nil 2
  cases h.unfolds _ _ _ _ hmatch with
  | first hmatch =>
    cases h.unfolds _ _ _ _ hmatch with
    | first hmatch =>
      refine h.keeps_nodeOf (by simp) ?_ hplace hmatch
      exact .skip (h.skips_punct _) <| .keep (h.rule .expression) <| .skip (h.skips_punct _) <|
        .nil 3
    | second hmatch => exact h.keeps_nodeOf (by simp) (hmember _ _) hplace hmatch
  | second hmatch => exact h.keeps_nodeOf (by simp) (hmember _ _) hplace hmatch

theorem carries_lvalue : Carries tokens M (Rule.grammar .lvalue) := by
  refine .choice h.unfolds (.fold h.unfolds
    (.choice h.unfolds h.carries_identifier (h.rule .parens)) ?_) h.carries_identifier
  intro place tree mid piece next htree hpiece
  obtain ⟨hcovers, label, part, hlabel, rfl⟩ :=
    h.rule .access _ _ _ htree.not_afterStruct hpiece
  refine (htree.append hcovers).of_holds ?_
  exact ⟨by simp [applyAccess, hlabel], by simp [applyAccess]⟩

/-! ## Variables -/

theorem carries_variableDecl : Carries tokens M (.rule .variableDecl) :=
  fun place tree next hplace hmatch => (h.rule .variableDecl place tree next hplace hmatch).1

theorem carries_initializer : Carries tokens M (Rule.grammar .initializer) :=
  h.carries_optional <| h.carries_pick <|
    .skip (h.skips_punct _) <| .keep (h.rule .expression) <| .nil 2

theorem carries_arrayDim : Carries tokens M (Rule.grammar .arrayDim) := by
  refine h.carries_seq
    (.skip (h.skips_punct _) <| .keep (h.carries_optional (h.rule .expression)) <|
     .skip (h.skips_punct _) <| .nil 3) fun {_ trees _} _ => ?_
  rw [dimension]
  split
  next hempty => exact ⟨by simp [picked, hempty], by simp [picked, hempty]⟩
  · exact holds_node (by simp) _

theorem keeps_arrayDims {place next : Nat} {tree : Tree}
    (hplace : isAfterStruct tokens place = false)
    (hmatch : M (Rule.grammar .arrayDims) place tree next) :
    Covers tokens [tree] place next ∧ ∃ text dims, tree = .node (.word text) dims := by
  refine ⟨h.carries_many (h.rule .arrayDim) (by simp) _ _ _ hplace hmatch, ?_⟩
  obtain ⟨dims, rfl, -⟩ := exists_of_matches_items h.unfolds hmatch
  exact ⟨_, dims, rfl⟩

theorem keeps_pointerMarks {place next : Nat} {tree : Tree}
    (hplace : isAfterStruct tokens place = false)
    (hmatch : M (Rule.grammar .pointerMarks) place tree next) :
    Covers tokens [tree] place next ∧ IsMarks tokens tree := by
  have hstar (t : Token) (ht : t.isPunctuator "*" = true) : t.IsSilent :=
    Token.isSilent_of_punctuator (by simp_all [Token.isPunctuator])
  have hconst (t : Token) (ht : t.isTypeKeyword "const" = true) : t.IsSilent :=
    Token.isSilent_of_typeKeyword (by decide) ht
  have hcarries : Carries tokens M (.choice (punct "*") (typeWord "const")) :=
    .choice h.unfolds (carries_token h.unfolds fun t ht => (hstar t ht).not_struct)
      (carries_token h.unfolds fun t ht => (hconst t ht).not_struct)
  refine ⟨h.carries_many hcarries (by simp) _ _ _ hplace hmatch, ?_⟩
  obtain ⟨marks, rfl, hitems⟩ := exists_of_matches_items h.unfolds hmatch
  refine ⟨_, marks, rfl, fun mark hmem => ?_⟩
  obtain ⟨start, stop, hmark⟩ := hitems.exists_match mark hmem
  cases h.unfolds _ _ _ _ hmark with
  | first hmark =>
    obtain ⟨t, htoken, ht, rfl, -⟩ := exists_of_matches_token h.unfolds hmark
    exact ⟨t, Array.mem_of_getElem? htoken, (hstar t ht).not_content, rfl⟩
  | second hmark =>
    obtain ⟨t, htoken, ht, rfl, -⟩ := exists_of_matches_token h.unfolds hmark
    exact ⟨t, Array.mem_of_getElem? htoken, (hconst t ht).not_content, rfl⟩

theorem keeps_variableDecl {place next : Nat} {tree : Tree}
    (hplace : isAfterStruct tokens place = false)
    (hmatch : M (Rule.grammar .variableDecl) place tree next) :
    Covers tokens [tree] place next ∧ IsDecl tokens tree := by
  refine fold_induction h.unfolds
    (J := fun tree mid => Covers tokens [tree] place mid ∧ IsDecl tokens tree) ?_ ?_ hmatch
  · intro tree mid hfirst
    have hrow : Row tokens M 0 [(Grammar.rule typeName).step, identifier.step] [0, 1] :=
      .type h.typeWords_of_typeName h.hasText_of_identifier <| .keep h.carries_identifier <| .nil 2
    refine ⟨h.carries_nodeOf (by simp) hrow _ _ _ hplace hfirst, ?_⟩
    obtain ⟨trees, hsteps, rfl⟩ := h.exists_of_matches_seq hfirst
    cases hsteps with
    | cons htype _ => exact ⟨_, _, rfl, (h.rule .typeName _ _ _ hplace htype).2⟩
  · rintro tree mid dim mid' ⟨hcovers, type, rest, rfl, htype⟩ hdim
    have hdim := h.rule .arrayDim _ _ _ hcovers.not_afterStruct hdim
    refine ⟨(hcovers.append hdim).of_holds ?_, type, rest ++ [dim], rfl, htype⟩
    exact ⟨by simp [addDim, Tree.children], by simp [addDim, Tree.children]⟩

theorem carries_firstDeclarator : Carries tokens M
    (seq [(Grammar.rule variableDecl).step, (Grammar.rule initializer).step]
      fun trees => withInitializer (pick 0 trees) (pick 1 trees)) :=
  h.carries_seq
    (.keep h.carries_variableDecl <| .keep (h.rule .initializer) <| .nil 2)
    fun _ => holds_withInitializer _ _

theorem isDeclarator_of_firstDeclarator {place next : Nat} {tree : Tree}
    (hplace : isAfterStruct tokens place = false)
    (hmatch : M (seq [(Grammar.rule variableDecl).step, (Grammar.rule initializer).step]
      fun trees => withInitializer (pick 0 trees) (pick 1 trees)) place tree next) :
    IsDeclarator tokens tree := by
  obtain ⟨trees, hsteps, rfl⟩ := h.exists_of_matches_seq hmatch
  cases hsteps with
  | cons hdecl _ => exact isDeclarator_withInitializer (h.rule .variableDecl _ _ _ hplace hdecl).2 _

/-- The pieces of a further declarator. -/
theorem keeps_furtherDeclarator {place next : Nat} {tree : Tree}
    (hplace : isAfterStruct tokens place = false)
    (hmatch : M (seq [(punct ",").step, (Grammar.rule pointerMarks).step, identifier.step,
        (Grammar.rule arrayDims).step, (Grammar.rule initializer).step]
      fun trees => .group (trees.drop 1)) place tree next) :
    ∃ marks name text dims init, tree = .group [marks, name, .node (.word text) dims, init] ∧
      IsMarks tokens marks ∧
      Covers tokens [marks, name, .node (.word text) dims, init] place next := by
  have hrow : Row tokens M 0 [(punct ",").step, (Grammar.rule pointerMarks).step, identifier.step,
      (Grammar.rule arrayDims).step, (Grammar.rule initializer).step] [1, 2, 3, 4] :=
    .skip (h.skips_punct _) <|
    .keep (fun _ _ _ hplace hmarks => (h.rule .pointerMarks _ _ _ hplace hmarks).1) <|
    .keep h.carries_identifier <|
    .keep (fun _ _ _ hplace hdims => (h.rule .arrayDims _ _ _ hplace hdims).1) <|
    .keep (h.rule .initializer) <| .nil 5
  obtain ⟨trees, hsteps, rfl⟩ := h.exists_of_matches_seq hmatch
  have hcovers := hrow.covers [] rfl hplace hsteps
  cases hsteps with
  | cons hcomma hrest =>
  cases hrest with
  | cons hmarks hrest =>
  cases hrest with
  | cons hname hrest =>
  cases hrest with
  | cons hdims hrest =>
  cases hrest with
  | cons hinit hnil =>
  cases hnil
  have hplace₁ := (h.skips_punct _ _ _ _ hplace hcomma).not_afterStruct
  have hmarks := h.rule .pointerMarks _ _ _ hplace₁ hmarks
  have hname := h.carries_identifier _ _ _ hmarks.1.not_afterStruct hname
  obtain ⟨-, text, dims, rfl⟩ := h.rule .arrayDims _ _ _ hname.not_afterStruct hdims
  exact ⟨_, _, text, dims, _, rfl, hmarks.2, hcovers⟩

theorem carries_variableCreation : Carries tokens M (Rule.grammar .variableCreation) := by
  intro place tree next hplace hmatch
  have hgroup : IsGroup tokens place tree next := by
    refine fold_induction h.unfolds (J := IsGroup tokens place) ?_ ?_ hmatch
    · intro tree mid hfirst
      exact ⟨tree, [], h.carries_firstDeclarator _ _ _ hplace hfirst,
        h.isDeclarator_of_firstDeclarator hplace hfirst, .inl ⟨rfl, rfl⟩⟩
    · rintro tree mid piece mid' ⟨first, others, hcovers, hfirst, htree⟩ hpiece
      obtain ⟨marks, name, text, dims, init, rfl, hmarks, hpieces⟩ :=
        h.keeps_furtherDeclarator hcovers.not_afterStruct hpiece
      obtain ⟨word, words, hbase, hcontent, hknown⟩ := exists_of_baseWords h.proper hfirst
      rw [hbase] at hknown
      refine ⟨first, _, hcovers.append (hpieces.declarator hmarks hcontent hknown), hfirst, .inr ?_⟩
      rw [addDeclarator_eq hfirst htree, hbase]
      rfl
  obtain ⟨first, others, hcovers, -, ⟨rfl, rfl⟩ | rfl⟩ := hgroup
  · exact hcovers
  · exact hcovers.of_holds (holds_node (by simp) _)

/-! ## Statements -/

theorem carries_ifBranch : Carries tokens M (Rule.grammar .ifBranch) :=
  h.carries_nodeOf (by simp) <|
    .skip (h.skips_word (by decide)) <| .skip (h.skips_punct _) <|
    .keep (h.rule .expression) <| .skip (h.skips_punct _) <| .keep (h.rule .body) <| .nil 5

theorem carries_elseIfBranch : Carries tokens M (Rule.grammar .elseIfBranch) :=
  h.carries_nodeOf (by simp) <|
    .skip (h.skips_word (by decide)) <| .skip (h.skips_word (by decide)) <|
    .skip (h.skips_punct _) <| .keep (h.rule .expression) <| .skip (h.skips_punct _) <|
    .keep (h.rule .body) <| .nil 6

theorem carries_elseBranch : Carries tokens M (Rule.grammar .elseBranch) :=
  h.carries_nodeOf (by simp) <|
    .skip (h.skips_word (by decide)) <| .keep (h.rule .body) <| .nil 2

theorem carries_whileLoop : Carries tokens M (Rule.grammar .whileLoop) :=
  h.carries_nodeOf (by simp) <|
    .skip (h.skips_word (by decide)) <| .skip (h.skips_punct _) <|
    .keep (h.rule .expression) <| .skip (h.skips_punct _) <| .keep (h.rule .body) <| .nil 5

theorem carries_optionalInstruction : Carries tokens M optionalInstruction :=
  h.carries_optional (h.rule .instruction)

theorem carries_forLoop : Carries tokens M (Rule.grammar .forLoop) :=
  h.carries_nodeOf (by simp) <|
    .skip (h.skips_word (by decide)) <| .skip (h.skips_punct _) <|
    .keep h.carries_optionalInstruction <| .skip (h.skips_punct _) <|
    .keep h.carries_optionalInstruction <| .skip (h.skips_punct _) <|
    .keep h.carries_optionalInstruction <| .skip (h.skips_punct _) <|
    .keep (h.rule .body) <| .nil 9

/-- The node for a do-while lists the condition first, which stands behind the body. -/
theorem carries_doWhileLoop : Carries tokens M (Rule.grammar .doWhileLoop) :=
  h.carries_seq
    (.skip (h.skips_word (by decide)) <| .keep (h.rule .body) <|
     .skip (h.skips_word (by decide)) <| .skip (h.skips_punct _) <|
     .keep (h.rule .expression) <| .skip (h.skips_punct _) <| .skip (h.skips_punct _) <| .nil 7)
    fun _ => holds_doWhile _ _

theorem carries_switchCase : Carries tokens M (Rule.grammar .switchCase) :=
  h.carries_nodeOf (by simp) <|
    .keep (.choice h.unfolds
      (h.carries_pick <|
        .skip (h.skips_word (by decide)) <| .keep (h.rule .expression) <| .nil 2)
      (h.carries_word _)) <|
    .skip (h.skips_punct _) <| .keep (h.rule .lines) <| .nil 3

theorem carries_switchOn : Carries tokens M (Rule.grammar .switchOn) := by
  refine carries_sequence h.unfolds
    (.skip (h.skips_word (by decide)) <| .skip (h.skips_punct _) <|
     .keep (h.rule .expression) <| .skip (h.skips_punct _) <| .skip (h.skips_punct _) <|
     .keep (h.carries_many (h.rule .switchCase) (by simp)) <| .skip (h.skips_punct _) <| .nil 7) ?_
  intro place trees next tree _ hmerge
  simp only [switchTree] at hmerge
  split at hmerge <;> cases hmerge
  exact holds_node (by simp) _

theorem carries_ifChain : Carries tokens M (Rule.grammar .ifChain) := by
  have hbranches : Carries tokens M
      (seq [(Grammar.rule ifBranch).step,
          (many (.rule .elseIfBranch) (.word "Else if operators")).step]
        fun trees => .node .ifChain (pick 0 trees :: (pick 1 trees).children)) := by
    refine h.carries_seq
      (.keep (h.rule .ifBranch) <| .keep (h.carries_many (h.rule .elseIfBranch) (by simp)) <|
       .nil 2) fun hsteps => ?_
    obtain ⟨start, stop, hbranches⟩ := hsteps.pick 1 rfl
    obtain ⟨branches, htree, -⟩ := exists_of_matches_items h.unfolds hbranches
    simp only [picked, List.map_cons, List.map_nil, htree]
    exact ⟨by simp [Tree.children], by simp [Tree.children]⟩
  refine h.carries_seq
    (.keep hbranches <| .keep (h.carries_optional (h.rule .elseBranch)) <| .nil 2)
    fun hsteps => ?_
  obtain ⟨start, stop, hchain⟩ := hsteps.pick 0 rfl
  obtain ⟨trees, -, htree⟩ := h.exists_of_matches_seq hchain
  simp only [picked, List.map_cons, List.map_nil, withElse, htree]
  split
  next hempty => exact ⟨by simp [hempty], by simp [hempty]⟩
  · exact ⟨by simp [Tree.children], by simp [Tree.children]⟩

theorem carries_scope : Carries tokens M (Rule.grammar .scope) :=
  h.carries_pick <|
    .skip (h.skips_punct _) <| .keep (h.rule .lines) <| .skip (h.skips_punct _) <| .nil 3

theorem carries_line : Carries tokens M (Rule.grammar .line) := by
  refine h.carries_seq
    (.keep (.items h.unfolds h.proper (h.rule .instruction) (by simp) (by decide)) <|
     .skip (h.skips_punct _) <| .nil 2) fun hsteps => ?_
  obtain ⟨start, stop, hitems⟩ := hsteps.pick 0 rfl
  obtain ⟨instructions, htree, -⟩ := exists_of_matches_items h.unfolds hitems
  simp only [picked, List.map_cons, List.map_nil, lineOf, htree, Tree.children]
  -- the label depends on the number of instructions only
  split <;> exact ⟨by simp, by simp⟩

theorem carries_jumpLabel : Carries tokens M (Rule.grammar .jumpLabel) :=
  h.carries_nodeOf (by simp) <| .keep h.carries_identifier <| .skip (h.skips_punct _) <| .nil 2

theorem carries_keywordInstruction : Carries tokens M (Rule.grammar .keywordInstruction) :=
  .oneOf h.unfolds (h.carries_word _)
    ⟨h.carries_word _,
     h.carries_nodeOf (by simp) <|
      .skip (h.skips_word (by decide)) <| .keep (h.carries_optional (h.rule .expression)) <| .nil 2,
     h.carries_nodeOf (by simp) <|
      .skip (h.skips_word (by decide)) <| .keep h.carries_identifier <| .nil 2⟩

theorem carries_instruction : Carries tokens M (Rule.grammar .instruction) :=
  .oneOf h.unfolds (h.rule .variableCreation)
    ⟨h.carries_variableDecl, h.rule .expression, h.rule .keywordInstruction⟩

theorem carries_statement : Carries tokens M (Rule.grammar .statement) :=
  .oneOf h.unfolds (h.rule .line)
    ⟨h.rule .whileLoop, h.rule .doWhileLoop, h.rule .forLoop, h.rule .ifChain, h.rule .switchOn⟩

theorem carries_lines : Carries tokens M (Rule.grammar .lines) :=
  h.carries_many
    (.oneOf h.unfolds (h.rule .line)
      ⟨h.rule .jumpLabel, h.rule .whileLoop, h.rule .doWhileLoop, h.rule .forLoop, h.rule .ifChain,
       h.rule .switchOn, h.rule .scope⟩) (by simp)

/-! ## Declarations -/

theorem carries_structField : Carries tokens M (Rule.grammar .structField) :=
  h.carries_pick <| .keep h.carries_variableDecl <| .skip (h.skips_punct _) <| .nil 2

omit h in
/-- The tag of a struct that is declared is no tag in a type name, since its fields follow. -/
theorem covers_structTag {place : Nat} {t u : Token} (htoken : tokens[place]? = some t)
    (ht : t.isTypeKeyword "struct" = true) (htoken' : tokens[place + 1]? = some u)
    (hu : u.isIdentifier = true) (hfields : hasText tokens (place + 2) "\x7b" = true) :
    Covers tokens [.leaf u 0] place (place + 2) := by
  have hkind : t.kind = .typeKeyword := by simp_all [Token.isTypeKeyword]
  have htag : isTag tokens (place + 1) = false := by
    rw [isTag, hfields, Bool.not_true, Bool.and_false]
  have hleaf := covers_leaf htoken' htag (by simp_all [Token.isIdentifier, Token.isTypeKeyword])
  refine { hleaf with le := by omega, content_eq := ?_ }
  rw [contentBetween_append (Nat.le_succ place) (Nat.le_succ _), contentBetween_succ,
    contentAt?_of_not_isContent htoken (isContent_of_typeKeyword hkind)]
  exact hleaf.content_eq

theorem carries_structDecl : Carries tokens M (Rule.grammar .structDecl) := by
  intro place tree next hplace hmatch
  have hrow : Row tokens M 2
      [(Grammar.block "\x7b" "\x7d" (many (.rule .structField) .structFields) .structFields).step,
       (punct ";").orFail "Invalid structure declaration: ';' is missed."] [2] :=
    .keep (.block h.unfolds h.proper (h.carries_many (h.rule .structField) (by simp)) (by simp)
      (by decide) (by decide)) <| .skip (h.skips_punct _) <| .nil 4
  obtain ⟨trees, hsteps, rfl⟩ := h.exists_of_matches_seq hmatch
  cases hsteps with
  | @cons _ _ _ _ _ word _ hword hrest =>
  cases hrest with
  | @cons _ _ _ _ _ name _ hname hrest =>
  obtain ⟨t, htoken, ht, rfl, rfl⟩ := exists_of_matches_token h.unfolds hword
  obtain ⟨u, htoken', hu, rfl, rfl⟩ := exists_of_matches_token h.unfolds hname
  have hplace' : isAfterStruct tokens (place + 2) = false :=
    (isAfterStruct_succ htoken').trans (by simp_all [Token.isIdentifier, Token.isTypeKeyword])
  have hback := hrow.covers [.leaf t 0, .leaf u 0] rfl hplace' hrest
  cases hrest with
  | cons hblock hend =>
  cases h.unfolds _ _ _ _ hblock with
  | block hopening hfields _ =>
    refine ((covers_structTag htoken ht htoken' hu hopening).append hback).of_holds ?_
    exact ⟨by simp [picked, pick, Tree.children], by simp [picked, pick, Tree.children]⟩

theorem carries_parameters : Carries tokens M (Rule.grammar .parameters) := by
  refine .choice h.unfolds ?_
    (.items h.unfolds h.proper h.carries_variableDecl (by simp) (by decide))
  intro place tree next hplace hmatch
  cases h.unfolds _ _ _ _ hmatch with
  | ahead hvoid _ =>
    exact (h.skips_typeWord (by decide) _ _ _ hplace hvoid).of_holds (holds_node (by simp) [])

theorem carries_functionDecl : Carries tokens M (Rule.grammar .functionDecl) :=
  h.carries_nodeOf (by simp) <|
    .type h.typeWords_of_typeName h.hasText_of_identifier <| .keep h.carries_identifier <|
    .skip (h.skips_punct _) <| .keep (h.rule .parameters) <| .skip (h.skips_punct _) <|
    .keep (h.rule .scope) <| .nil 6

theorem carries_functionPrototype : Carries tokens M (Rule.grammar .functionPrototype) :=
  h.carries_nodeOf (by simp) <|
    .type h.typeWords_of_typeName h.hasText_of_identifier <| .keep h.carries_identifier <|
    .skip (h.skips_punct _) <| .keep (h.rule .parameters) <| .skip (h.skips_punct _) <|
    .skip (h.skips_punct _) <| .nil 6

theorem carries_program : Carries tokens M (Rule.grammar .program) :=
  h.carries_many
    (.oneOf h.unfolds (h.rule .structDecl)
      ⟨h.rule .functionDecl, h.rule .functionPrototype,
       h.carries_pick (.keep (h.rule .variableCreation) <| .skip (h.skips_punct _) <| .nil 2),
       h.carries_directive⟩) (by simp)

/-! ## All rules -/

theorem keeps_grammar (name : Rule) {place next : Nat} {tree : Tree}
    (hplace : isAfterStruct tokens place = false)
    (hmatch : M (Rule.grammar name) place tree next) : name.Keeps tokens tree place next := by
  cases name with
  | program => exact h.carries_program _ _ _ hplace hmatch
  | structField => exact h.carries_structField _ _ _ hplace hmatch
  | structDecl => exact h.carries_structDecl _ _ _ hplace hmatch
  | parameters => exact h.carries_parameters _ _ _ hplace hmatch
  | functionDecl => exact h.carries_functionDecl _ _ _ hplace hmatch
  | functionPrototype => exact h.carries_functionPrototype _ _ _ hplace hmatch
  | body => exact Carries.choice h.unfolds (h.rule .scope) (h.rule .statement) _ _ _ hplace hmatch
  | statement => exact h.carries_statement _ _ _ hplace hmatch
  | ifBranch => exact h.carries_ifBranch _ _ _ hplace hmatch
  | elseIfBranch => exact h.carries_elseIfBranch _ _ _ hplace hmatch
  | elseBranch => exact h.carries_elseBranch _ _ _ hplace hmatch
  | ifChain => exact h.carries_ifChain _ _ _ hplace hmatch
  | switchCase => exact h.carries_switchCase _ _ _ hplace hmatch
  | switchOn => exact h.carries_switchOn _ _ _ hplace hmatch
  | forLoop => exact h.carries_forLoop _ _ _ hplace hmatch
  | doWhileLoop => exact h.carries_doWhileLoop _ _ _ hplace hmatch
  | whileLoop => exact h.carries_whileLoop _ _ _ hplace hmatch
  | scope => exact h.carries_scope _ _ _ hplace hmatch
  | lines => exact h.carries_lines _ _ _ hplace hmatch
  | line => exact h.carries_line _ _ _ hplace hmatch
  | instruction => exact h.carries_instruction _ _ _ hplace hmatch
  | jumpLabel => exact h.carries_jumpLabel _ _ _ hplace hmatch
  | keywordInstruction => exact h.carries_keywordInstruction _ _ _ hplace hmatch
  | initializer => exact h.carries_initializer _ _ _ hplace hmatch
  | pointerMarks => exact h.keeps_pointerMarks hplace hmatch
  | arrayDim => exact h.carries_arrayDim _ _ _ hplace hmatch
  | arrayDims => exact h.keeps_arrayDims hplace hmatch
  | variableCreation => exact h.carries_variableCreation _ _ _ hplace hmatch
  | variableDecl => exact h.keeps_variableDecl hplace hmatch
  | structType => exact h.keeps_structType hmatch
  | typeName => exact h.keeps_typeName hplace hmatch
  | expression => exact h.carries_expression _ _ _ hplace hmatch
  | assignment => exact h.carries_assignment _ _ _ hplace hmatch
  | ternary => exact h.carries_ternary _ _ _ hplace hmatch
  | flat => exact h.carries_level _ (h.rule .shift) _ _ _ hplace hmatch
  | shift => exact h.carries_level _ (h.rule .additive) _ _ _ hplace hmatch
  | additive => exact h.carries_level _ (h.rule .multiplicative) _ _ _ hplace hmatch
  | multiplicative => exact h.carries_level _ (h.rule .unary) _ _ _ hplace hmatch
  | indirection =>
    exact h.carries_prefixed (h.rule .unary) (by simp) (by decide) _ _ _ hplace hmatch
  | unary => exact h.carries_unary _ _ _ hplace hmatch
  | postfixed => exact h.carries_postfixed _ _ _ hplace hmatch
  | parens =>
    exact Carries.block h.unfolds h.proper (h.rule .expression) (by simp) (by decide) (by decide)
      _ _ _ hplace hmatch
  | rvalue => exact h.carries_rvalue _ _ _ hplace hmatch
  | access => exact h.keeps_access hplace hmatch
  | lvalue => exact h.carries_lvalue _ _ _ hplace hmatch

end Keeping

theorem keeps_of_plain {tokens : Array Token} (hproper : ∀ t ∈ tokens, t.IsProper)
    {fuel place next : Nat} {name : Rule} {tree : Tree}
    (hplace : isAfterStruct tokens place = false)
    (h : plain (fun name => .ok (Rule.grammar name)) tokens fuel (.rule name) place
      = .ok (some (tree, next))) : name.Keeps tokens tree place next := by
  induction fuel using Nat.strongRecOn generalizing name place tree next with
  | ind fuel ih =>
    have hkeeping : Keeping tokens (Within (fun name => .ok (Rule.grammar name)) tokens fuel) := {
      unfolds := Within.unfolds fuel
      proper := hproper
      rule := by
        rintro name place tree next hplace ⟨less, hless, hplain⟩
        exact ih less hless hplace hplain }
    cases matchesBy_of_plain h with
    | rule hbody htree =>
      cases hbody
      exact hkeeping.keeps_grammar name hplace htree

/-- The tokens of `struct S{int a;};struct S*p,q;void f(){do break;while(p);}`. -/
def taggedTokens : List Token := [
  ⟨⟨.typeKeyword, "struct", ⟨1, 1⟩, []⟩, 1⟩, ⟨⟨.identifier, "S", ⟨1, 8⟩, []⟩, 2⟩,
  ⟨⟨.punctuator, "\x7b", ⟨1, 9⟩, []⟩, 3⟩, ⟨⟨.typeKeyword, "int", ⟨1, 10⟩, []⟩, 4⟩,
  ⟨⟨.identifier, "a", ⟨1, 14⟩, []⟩, 5⟩, ⟨⟨.punctuator, ";", ⟨1, 15⟩, []⟩, 6⟩,
  ⟨⟨.punctuator, "\x7d", ⟨1, 16⟩, []⟩, 7⟩, ⟨⟨.punctuator, ";", ⟨1, 17⟩, []⟩, 6⟩,
  ⟨⟨.typeKeyword, "struct", ⟨1, 18⟩, []⟩, 1⟩, ⟨⟨.identifier, "S", ⟨1, 25⟩, []⟩, 2⟩,
  ⟨⟨.punctuator, "*", ⟨1, 26⟩, []⟩, 8⟩, ⟨⟨.identifier, "p", ⟨1, 27⟩, []⟩, 9⟩,
  ⟨⟨.punctuator, ",", ⟨1, 28⟩, []⟩, 10⟩, ⟨⟨.identifier, "q", ⟨1, 29⟩, []⟩, 11⟩,
  ⟨⟨.punctuator, ";", ⟨1, 30⟩, []⟩, 6⟩, ⟨⟨.typeKeyword, "void", ⟨1, 31⟩, []⟩, 12⟩,
  ⟨⟨.identifier, "f", ⟨1, 36⟩, []⟩, 13⟩, ⟨⟨.punctuator, "(", ⟨1, 37⟩, []⟩, 14⟩,
  ⟨⟨.punctuator, ")", ⟨1, 38⟩, []⟩, 15⟩, ⟨⟨.punctuator, "\x7b", ⟨1, 39⟩, []⟩, 3⟩,
  ⟨⟨.keyword, "do", ⟨1, 40⟩, []⟩, 16⟩, ⟨⟨.keyword, "break", ⟨1, 43⟩, []⟩, 17⟩,
  ⟨⟨.punctuator, ";", ⟨1, 48⟩, []⟩, 6⟩, ⟨⟨.keyword, "while", ⟨1, 49⟩, []⟩, 18⟩,
  ⟨⟨.punctuator, "(", ⟨1, 54⟩, []⟩, 14⟩, ⟨⟨.identifier, "p", ⟨1, 55⟩, []⟩, 9⟩,
  ⟨⟨.punctuator, ")", ⟨1, 56⟩, []⟩, 15⟩, ⟨⟨.punctuator, ";", ⟨1, 57⟩, []⟩, 6⟩,
  ⟨⟨.punctuator, "\x7d", ⟨1, 58⟩, []⟩, 7⟩]

/-- The tree of these tokens, whose leaves have no numbers yet. -/
def taggedTree : Tree :=
  let token (place : Nat) : Token := taggedTokens.getD place default
  let leaf (place : Nat) : Tree := .leaf (token place) 0
  .node .program [
    .node .structDecl [leaf 1, .node .structFields [.node .variableDecl [leaf 3, leaf 4]]],
    .node .variablesDecl [
      .node .variableDecl [.typeName [token 8, token 9, token 10] 0, leaf 11],
      .node .variableDecl [.typeName [token 8, token 9] 0, leaf 13]],
    .node .functionDecl [leaf 15, leaf 16, .node .functionParameters [],
      .node .block [.node .doWhileLoop [leaf 25, .node .line [leaf 21]]]]]

end MiniC
