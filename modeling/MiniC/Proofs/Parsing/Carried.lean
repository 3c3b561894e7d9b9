import MiniC.Proofs.Parsing.Content

set_option autoImplicit false

/-! # Grammars that carry their content

When the trees that a grammar matches have the content of the tokens that they were made of. There
is one lemma for each way to put grammars together, for any relation `M` whose matches are made of
matches in `M`. A sequence drops some of its steps and makes a tree of the others: `Row` says which
ones it may drop. The words of a type name are special: whether an identifier behind `struct` is a
part of one is seen only by the token behind it. -/

namespace MiniC.Grammar

variable {ρ : Type} {rules : ρ → Except ParseFailure (Grammar ρ)} {tokens : Array Token}
  {M : Grammar ρ → Nat → Tree → Nat → Prop}

section

variable (rules : ρ → Except ParseFailure (Grammar ρ)) (tokens : Array Token)
  (M : Grammar ρ → Nat → Tree → Nat → Prop)

/-- Whether matches in `M` are made of matches in `M`. -/
def Unfolds : Prop :=
  ∀ g place tree next, M g place tree next → MatchesBy rules tokens M g place tree next

/-- Whether the trees that a grammar matches have the content of the tokens they are made of. -/
def Carries (g : Grammar ρ) : Prop :=
  ∀ place tree next, isAfterStruct tokens place = false → M g place tree next →
    Covers tokens [tree] place next

/-- Whether a grammar takes only tokens that are no content. -/
def Skips (g : Grammar ρ) : Prop :=
  ∀ place tree next, isAfterStruct tokens place = false → M g place tree next →
    Covers tokens [] place next

end

/-- Whether a tree is made of the words of a type name, or of a part of one. If no fields follow,
its identifiers are tags. -/
structure TypeWords (tokens : Array Token) (tree : Tree) (place next : Nat) : Prop where
  le : place ≤ next
  starts : hasText tokens place "\x7b" = false
  content_eq : hasText tokens next "\x7b" = false → contentBetween tokens place next = []
  content_tree : tree.content = []
  leaves_eq : tree.leaves = [tree.typeTokens]
  known : ∀ t ∈ tree.typeTokens, t ∈ tokens
  not_afterStruct : isAfterStruct tokens next = false

theorem Within.unfolds (fuel : Nat) : Unfolds rules tokens (Within rules tokens fuel) := by
  rintro g place tree next ⟨less, hless, hplain⟩
  exact (matchesBy_of_plain hplain).imp (Within.mono (Nat.le_of_lt hless))

theorem TypeWords.covers {tree : Tree} {place next : Nat} (h : TypeWords tokens tree place next)
    (hnext : hasText tokens next "\x7b" = false) : Covers tokens [tree] place next where
  le := h.le
  content_eq := by rw [List.flatMap_singleton, h.content_tree, h.content_eq hnext]
  known := by
    intro words hwords
    rw [List.flatMap_singleton, h.leaves_eq, List.mem_singleton] at hwords
    exact hwords ▸ h.known
  not_afterStruct := h.not_afterStruct

theorem TypeWords.of_token {place : Nat} {t : Token}
    (htoken : tokens[place]? = some t) (hstarts : hasText tokens place "\x7b" = false)
    (hsilent : t.IsSilent) : TypeWords tokens (.leaf t 0) place (place + 1) where
  le := Nat.le_succ place
  starts := hstarts
  content_eq _ := by
    rw [contentBetween_succ, contentAt?_of_not_isContent htoken hsilent.not_content]
    rfl
  content_tree := Tree.content_leaf_of_not_isContent hsilent.not_content 0
  leaves_eq := rfl
  known := by simpa [Tree.typeTokens] using Array.mem_of_getElem? htoken
  not_afterStruct := (isAfterStruct_succ htoken).trans hsilent.not_struct

theorem TypeWords.joinTypes {left right : Tree} {place mid next : Nat}
    (h : TypeWords tokens left place mid) (h' : TypeWords tokens right mid next) :
    TypeWords tokens (Rule.joinTypes left right) place next where
  le := Nat.le_trans h.le h'.le
  starts := h.starts
  content_eq hnext := by
    -- a type name that goes on has no fields behind it
    rw [contentBetween_append h.le h'.le, h.content_eq h'.starts, h'.content_eq hnext]
    rfl
  content_tree := rfl
  leaves_eq := rfl
  known := by
    intro t ht
    exact (List.mem_append.mp ht).elim (h.known t) (h'.known t)
  not_afterStruct := h'.not_afterStruct

/-! ## Tokens and marks -/

theorem exists_of_matches_token (hunfold : Unfolds rules tokens M) {accepts : Token → Bool}
    {place next : Nat} {tree : Tree} (h : M (.token accepts) place tree next) :
    ∃ t, tokens[place]? = some t ∧ accepts t = true ∧ tree = .leaf t 0 ∧ next = place + 1 := by
  cases hunfold _ _ _ _ h with
  | token htoken haccepts => exact ⟨_, htoken, haccepts, rfl, rfl⟩

theorem isTag_of_not_isAfterStruct {place : Nat} (h : isAfterStruct tokens place = false) :
    isTag tokens place = false := by
  rw [isTag, h, Bool.false_and]

theorem carries_token (hunfold : Unfolds rules tokens M) {accepts : Token → Bool}
    (haccepts : ∀ t, accepts t = true → t.isTypeKeyword "struct" = false) :
    Carries tokens M (.token accepts) := by
  intro place tree next hplace h
  obtain ⟨t, htoken, ht, rfl, rfl⟩ := exists_of_matches_token hunfold h
  exact covers_leaf htoken (isTag_of_not_isAfterStruct hplace) (haccepts t ht)

theorem skips_token (hunfold : Unfolds rules tokens M) {accepts : Token → Bool}
    (haccepts : ∀ t, accepts t = true → t.IsSilent) : Skips tokens M (.token accepts) := by
  intro place tree next hplace h
  obtain ⟨t, htoken, ht, rfl, rfl⟩ := exists_of_matches_token hunfold h
  exact covers_skipped htoken (haccepts t ht)

/-- Whether a text is spelled like a separator or an operator. -/
def IsMark (text : String) : Prop :=
  text.toList ∈ separators.map ([·]) ++ operators

instance (text : String) : Decidable (IsMark text) :=
  inferInstanceAs (Decidable (_ ∈ _))

section

variable (hproper : ∀ t ∈ tokens, t.IsProper)

include hproper

theorem isPunctuator_of_mark {place : Nat} {t : Token} (htoken : tokens[place]? = some t)
    (hmark : IsMark t.text) : t.kind = .punctuator :=
  hproper t (Array.mem_of_getElem? htoken) hmark

theorem hasText_of_kind {place : Nat} {t : Token} (htoken : tokens[place]? = some t)
    (hkind : t.kind ≠ .punctuator) : hasText tokens place "\x7b" = false := by
  by_contra htext
  simp only [hasText, htoken, decide_eq_true_eq, Bool.not_eq_false] at htext
  exact hkind (isPunctuator_of_mark hproper htoken (htext ▸ by decide))

theorem covers_mark {place : Nat} {t : Token} (htoken : tokens[place]? = some t)
    (hmark : IsMark t.text) : Covers tokens [] place (place + 1) :=
  covers_skipped htoken (Token.isSilent_of_punctuator (isPunctuator_of_mark hproper htoken hmark))

theorem covers_of_hasText {place : Nat} {text : String} (h : hasText tokens place text = true)
    (hmark : IsMark text) : Covers tokens [] place (place + 1) := by
  obtain ⟨t, htoken, rfl⟩ := exists_of_hasText h
  exact covers_mark hproper htoken hmark

theorem covers_of_hasOperator {place : Nat} {text : String}
    (h : hasOperator tokens place text = true) (hmark : IsMark text) :
    Covers tokens [] place (place + 1) := by
  obtain ⟨t, htoken, rfl, -⟩ := exists_of_hasOperator h
  exact covers_mark hproper htoken hmark

end

/-! ## Sequences -/

section

variable (tokens M)

/-- Whether the steps of a sequence, of which the first is the one with the number `first`, may all
be dropped but those with the numbers `kept`. -/
inductive Row : (first : Nat) → List (Step (Grammar ρ)) → (kept : List Nat) → Prop
  | nil (first : Nat) : Row first [] []
  | skip {first : Nat} {step : Step (Grammar ρ)} {rest : List (Step (Grammar ρ))} {kept : List Nat}
    (hstep : Skips tokens M step.grammar) (hrest : Row (first + 1) rest kept) :
    Row first (step :: rest) kept
  | keep {first : Nat} {step : Step (Grammar ρ)} {rest : List (Step (Grammar ρ))} {kept : List Nat}
    (hstep : Carries tokens M step.grammar) (hrest : Row (first + 1) rest kept) :
    Row first (step :: rest) (first :: kept)
  | type {first : Nat} {step step' : Step (Grammar ρ)} {rest : List (Step (Grammar ρ))}
    {kept : List Nat}
    (hstep : ∀ place tree next, isAfterStruct tokens place = false →
      M step.grammar place tree next → TypeWords tokens tree place next)
    (hfollow : ∀ place tree next, M step'.grammar place tree next →
      hasText tokens place "\x7b" = false)
    (hrest : Row (first + 1) (step' :: rest) kept) :
    Row first (step :: step' :: rest) (first :: kept)

end

/-- The trees with the numbers `places` of a sequence. -/
def picked (places : List Nat) (trees : List Tree) : List Tree :=
  places.map fun place => Rule.pick place trees

theorem pick_length (front : List Tree) (tree : Tree) (rest : List Tree) :
    Rule.pick front.length (front ++ tree :: rest) = tree := by
  simp [Rule.pick]

theorem Row.covers {first : Nat} {steps : List (Step (Grammar ρ))} {kept : List Nat}
    (h : Row tokens M first steps kept) (front : List Tree) {trees : List Tree} {place next : Nat}
    (hfront : front.length = first) (hplace : isAfterStruct tokens place = false)
    (hsteps : MatchesSteps M steps place trees next) :
    Covers tokens (picked kept (front ++ trees)) place next := by
  induction h generalizing front trees place with
  | nil first =>
    cases hsteps
    exact covers_nil hplace
  | skip hstep _ ih =>
    cases hsteps with
    | @cons _ _ _ mid _ tree trees hmatch hrest =>
      have hskipped := hstep _ _ _ hplace hmatch
      have hothers := ih (front ++ [tree]) (by simp [hfront]) hskipped.not_afterStruct hrest
      rw [List.append_assoc] at hothers
      exact hskipped.append hothers
  | keep hstep _ ih =>
    cases hsteps with
    | @cons _ _ _ mid _ tree trees hmatch hrest =>
      have hkept := hstep _ _ _ hplace hmatch
      have hothers := ih (front ++ [tree]) (by simp [hfront]) hkept.not_afterStruct hrest
      rw [List.append_assoc] at hothers
      rw [picked, List.map_cons, ← hfront, pick_length]
      exact hkept.append hothers
  | type hstep hfollow _ ih =>
    cases hsteps with
    | @cons _ _ _ mid _ tree trees hmatch hrest =>
      have hkept := hstep _ _ _ hplace hmatch
      have hothers := ih (front ++ [tree]) (by simp [hfront]) hkept.not_afterStruct hrest
      rw [List.append_assoc] at hothers
      rw [picked, List.map_cons, ← hfront, pick_length]
      cases hrest with
      | cons hmatch' _ => exact (hkept.covers (hfollow _ _ _ hmatch')).append hothers

/-- The tree of a step is one that the grammar of the step matches. -/
theorem MatchesSteps.pick {steps : List (Step (Grammar ρ))} {trees : List Tree} {place next : Nat}
    (h : MatchesSteps M steps place trees next) (i : Nat) {step : Step (Grammar ρ)}
    (hstep : steps[i]? = some step) :
    ∃ start stop, M step.grammar start (Rule.pick i trees) stop := by
  induction h generalizing i with
  | nil place => cases hstep
  | cons hmatch _ ih =>
    cases i with
    | zero =>
      cases hstep
      exact ⟨_, _, hmatch⟩
    | succ i => exact ih i hstep

section

variable (hunfold : Unfolds rules tokens M)

include hunfold

theorem carries_sequence {steps : List (Step (Grammar ρ))}
    {merge : List Tree → Except SyntaxError Tree} {kept : List Nat}
    (hrow : Row tokens M 0 steps kept)
    (hmerge : ∀ {place trees next tree}, MatchesSteps M steps place trees next →
      merge trees = .ok tree → Holds tree (picked kept trees)) :
    Carries tokens M (.sequence steps merge) := by
  intro place tree next hplace h
  cases hunfold _ _ _ _ h with
  | sequence hsteps htree =>
    exact (hrow.covers [] rfl hplace hsteps).of_holds (hmerge hsteps htree)

/-! ## The other ways to put grammars together -/

theorem carries_empty : Carries tokens M .empty := by
  intro place tree next hplace h
  cases hunfold _ _ _ _ h
  exact (covers_nil hplace).of_holds ⟨rfl, List.nil_subset _⟩

theorem Carries.choice {first second : Grammar ρ} (hfirst : Carries tokens M first)
    (hsecond : Carries tokens M second) : Carries tokens M (.choice first second) := by
  intro place tree next hplace h
  cases hunfold _ _ _ _ h with
  | first htree => exact hfirst _ _ _ hplace htree
  | second htree => exact hsecond _ _ _ hplace htree

theorem Carries.oneOf {first : Grammar ρ} {others : List (Grammar ρ)}
    (hfirst : Carries tokens M first) (hothers : others.Forall (Carries tokens M)) :
    Carries tokens M (.oneOf first others) := by
  induction others generalizing first with
  | nil => exact hfirst
  | cons second others ih =>
    rw [List.forall_cons] at hothers
    exact ih (hfirst.choice hunfold hothers.1) hothers.2

/-- What a fold keeps: what holds of its first match and is kept by each further one. -/
theorem fold_induction {first other : Grammar ρ} {merge : Tree → Tree → Tree} {canBeAlone : Bool}
    {J : Tree → Nat → Prop} {place next : Nat} {tree : Tree}
    (hfirst : ∀ tree mid, M first place tree mid → J tree mid)
    (hother : ∀ tree mid piece mid', J tree mid → M other mid piece mid' →
      J (merge tree piece) mid')
    (h : M (.fold first other merge canBeAlone) place tree next) : J tree next := by
  cases hunfold _ _ _ _ h with
  | alone htree => exact hfirst _ _ htree
  | @fold _ _ _ _ _ mid mid' _ start piece _ htree hpiece hrest =>
    have hstart := hother _ _ _ _ (hfirst _ _ htree) hpiece
    clear h htree hpiece
    generalize merge start piece = tree' at hstart hrest
    induction hrest with
    | done tree place => exact hstart
    | more hpiece _ ih => exact ih (hother _ _ _ _ hstart hpiece)

theorem Carries.fold {first other : Grammar ρ} {merge : Tree → Tree → Tree} {canBeAlone : Bool}
    (hfirst : Carries tokens M first)
    (hother : ∀ place tree mid piece next, Covers tokens [tree] place mid →
      M other mid piece next → Covers tokens [merge tree piece] place next) :
    Carries tokens M (.fold first other merge canBeAlone) := by
  intro place tree next hplace h
  exact fold_induction hunfold (J := fun tree mid => Covers tokens [tree] place mid)
    (fun tree mid htree => hfirst _ _ _ hplace htree)
    (fun tree mid piece mid' htree hpiece => hother _ _ _ _ _ htree hpiece) h

theorem exists_of_matches_items {element : Grammar ρ} {label : Label} {separator : Option String}
    {canBeEmpty : Bool} {place next : Nat} {tree : Tree}
    (h : M (.items element label separator canBeEmpty) place tree next) :
    ∃ trees, tree = .node label trees ∧
      MatchesItems tokens M element separator place trees next := by
  cases hunfold _ _ _ _ h with
  | items hitems _ => exact ⟨_, rfl, hitems⟩

omit hunfold in
theorem MatchesItems.exists_match {element : Grammar ρ} {separator : Option String}
    {place next : Nat} {trees : List Tree}
    (h : MatchesItems tokens M element separator place trees next) :
    ∀ tree ∈ trees, ∃ start stop, M element start tree stop := by
  induction h with
  | nil place => simp
  | last htree => simpa using ⟨_, _, htree⟩
  | more htree _ _ ih => simpa using ⟨⟨_, _, htree⟩, ih⟩

variable (hproper : ∀ t ∈ tokens, t.IsProper)

include hproper

omit hunfold in
theorem covers_of_separates {separator : Option String} (hmark : separator.all fun s => IsMark s)
    {place next : Nat} (hplace : isAfterStruct tokens place = false)
    (h : Separates tokens separator place next) : Covers tokens [] place next := by
  cases separator with
  | none =>
    cases h
    exact covers_nil hplace
  | some text =>
    obtain ⟨htext, rfl⟩ := h
    exact covers_of_hasText hproper htext (by simpa using hmark)

omit hunfold in
theorem Carries.matchesItems {element : Grammar ρ} {separator : Option String} {place next : Nat}
    {trees : List Tree} (helement : Carries tokens M element)
    (hmark : separator.all fun s => IsMark s) (hplace : isAfterStruct tokens place = false)
    (h : MatchesItems tokens M element separator place trees next) :
    Covers tokens trees place next := by
  induction h with
  | nil place => exact covers_nil hplace
  | last htree => exact helement _ _ _ hplace htree
  | more htree hseparator _ ih =>
    have htree := helement _ _ _ hplace htree
    have hseparator := covers_of_separates hproper hmark htree.not_afterStruct hseparator
    exact htree.append (hseparator.append (ih hseparator.not_afterStruct))

theorem Carries.items {element : Grammar ρ} {label : Label} {separator : Option String}
    {canBeEmpty : Bool} (helement : Carries tokens M element) (hlabel : label ≠ .doWhileLoop)
    (hmark : separator.all fun s => IsMark s) :
    Carries tokens M (.items element label separator canBeEmpty) := by
  intro place tree next hplace h
  obtain ⟨trees, rfl, hitems⟩ := exists_of_matches_items hunfold h
  exact (helement.matchesItems hproper hmark hplace hitems).of_holds (holds_node hlabel trees)

theorem Carries.block {opening closing : String} {inner : Grammar ρ} {label : Label}
    (hinner : Carries tokens M inner) (hlabel : label ≠ .doWhileLoop)
    (hopening : IsMark opening) (hclosing : IsMark closing) :
    Carries tokens M (.block opening closing inner label) := by
  intro place tree next hplace h
  cases hunfold _ _ _ _ h with
  | block htext htree htext' =>
    have hfront := covers_of_hasText hproper htext hopening
    have hchild := hinner _ _ _ hfront.not_afterStruct htree
    have hback := covers_of_hasText hproper htext' hclosing
    exact (hfront.append (hchild.append hback)).of_holds (holds_node hlabel _)

theorem Carries.prefixed {operator : String} {operand : Grammar ρ} {label : Label}
    (hoperand : Carries tokens M operand) (hlabel : label ≠ .doWhileLoop)
    (hmark : IsMark operator) : Carries tokens M (.prefixed operator operand label) := by
  intro place tree next hplace h
  cases hunfold _ _ _ _ h with
  | prefixed hoperator htree =>
    have hfront := covers_of_hasOperator hproper hoperator hmark
    have hchild := hoperand _ _ _ hfront.not_afterStruct htree
    exact (hfront.append hchild).of_holds (holds_node hlabel _)

theorem Carries.suffixed {operator : String} {operand : Grammar ρ} {label : Label}
    (hoperand : Carries tokens M operand) (hlabel : label ≠ .doWhileLoop)
    (hmark : IsMark operator) : Carries tokens M (.suffixed operand operator label) := by
  intro place tree next hplace h
  cases hunfold _ _ _ _ h with
  | suffixed htree hoperator =>
    have hchild := hoperand _ _ _ hplace htree
    have hback := covers_of_hasOperator hproper hoperator hmark
    exact (hchild.append hback).of_holds (holds_node hlabel _)

end

/-- A binary operator is kept as the label of its node. -/
theorem Carries.binary (hunfold : Unfolds rules tokens M) {left right : Grammar ρ}
    {accepts : Token → Bool} (hleft : Carries tokens M left) (hright : Carries tokens M right)
    (haccepts : ∀ t, accepts t = true → t.kind = .punctuator) :
    Carries tokens M (.binary left right (.token accepts)) := by
  have hoperator : Skips tokens M (.token accepts) :=
    skips_token hunfold fun t ht => Token.isSilent_of_punctuator (haccepts t ht)
  refine hleft.fold hunfold fun place tree mid piece next htree hpiece => ?_
  cases hunfold _ _ _ _ hpiece with
  | sequence hsteps hmerge =>
    cases hmerge
    have hrow : Row tokens M 0 [step (.token accepts), step right] [1] :=
      .skip hoperator (.keep hright (.nil 2))
    have hsecond := hrow.covers [] rfl htree.not_afterStruct hsteps
    cases hsteps with
    | cons hmark hrest =>
      cases hrest with
      | cons hmatch hnil =>
        cases hnil
        obtain ⟨t, -, -, rfl, -⟩ := exists_of_matches_token hunfold hmark
        have hlabel : Label.word t.text ≠ .doWhileLoop := nofun
        exact (htree.append hsecond).of_holds (holds_node hlabel _)

end MiniC.Grammar
