import MiniC.Proofs.Parsing.Bare
import MiniC.Proofs.Parsing.Termination

set_option autoImplicit false

/-! # The parts of declarations

The grammar of expressions looks at single tokens by their kind and spelling, and neither a comma
nor a semicolon is among the tokens that it takes. So a parse that begins in front of the end of a
declarator does not go on behind it, but for lists, which go on at a comma. A brace that is matched
opens a list that is closed. -/

namespace MiniC

open Grammar Rule

/-! ## Confined grammars -/

/-- The texts of the punctuators at which the parts of a declaration end, and at which a list of
initializers begins. -/
def barriers : List String := [";", ",", "\x7b"]

/-- Whether a test of tokens looks at their kind and spelling only, and accepts no barrier. -/
structure Inner (accepts : Token → Bool) : Prop where
  natural : ∀ t, accepts t.bare = accepts t
  closed : ∀ t : Token, t.kind = .punctuator → t.text ∈ barriers → accepts t = false

/-- A list of initializers. -/
def initList : G :=
  .block "\x7b" "\x7d" (.items (.rule .expression) .initValues (some ",") false) .initList

/-- Whether a rule is for a part of a declaration. -/
def Rule.isInner : Rule → Bool
  | .initializer | .arrayDim | .structType | .typeName | .expression | .assignment | .ternary
  | .flat | .shift | .additive | .multiplicative | .indirection | .unary | .postfixed | .parens
  | .rvalue | .access | .lvalue => true
  | _ => false

mutual

/-- Whether a grammar consists of tests for single tokens and of rules that are confined. -/
inductive Confined : G → Prop
  | token {accepts : Token → Bool} (h : Inner accepts) : Confined (.token accepts)
  | empty : Confined .empty
  | rule {name : Rule} (h : name.isInner = true) : Confined (.rule name)
  | choice {first second : G} (hfirst : Confined first) (hsecond : Confined second) :
    Confined (.choice first second)
  | sequence {steps : List (Step G)} {f : List Tree → Tree} (hsteps : ConfinedSteps steps)
    (hf : Natural f) : Confined (.sequence steps (make f))
  | fold {first other : G} {merge : Tree → Tree → Tree} {canBeAlone : Bool}
    (hfirst : Confined first) (hother : Confined other) (hmerge : NaturalPair merge) :
    Confined (.fold first other merge canBeAlone)
  | block {opening closing : String} {inner : G} {label : Label} (hopening : opening ∉ barriers)
    (hclosing : closing ∉ barriers) (hinner : Confined inner) :
    Confined (.block opening closing inner label)
  | initList : Confined initList
  | prefixed {operator : String} {operand : G} {label : Label} (hoperator : operator ∉ barriers)
    (hoperand : Confined operand) : Confined (.prefixed operator operand label)
  | suffixed {operator : String} {operand : G} {label : Label} (hoperator : operator ∉ barriers)
    (hoperand : Confined operand) : Confined (.suffixed operand operator label)

/-- Whether the steps of a sequence are confined. Where they end in a list, what closes it must
follow. -/
inductive ConfinedSteps : List (Step G) → Prop
  | nil : ConfinedSteps []
  | cons {step : Step G} {rest : List (Step G)} (hstep : Confined step.grammar)
    (hrest : ConfinedSteps rest) : ConfinedSteps (step :: rest)
  | listed {element : G} {label : Label} {accepts : Token → Bool} {message : String}
    (helement : Confined element) (hclosing : Inner accepts) :
    ConfinedSteps [(Grammar.items element label (some ",") true).step,
      (Grammar.token accepts).orFail message]

end

/-! ## The rules for expressions -/

theorem inner_of_kind {accepts : Token → Bool} (hnatural : ∀ t, accepts t.bare = accepts t)
    (hkind : ∀ t : Token, t.kind = .punctuator → accepts t = false) : Inner accepts :=
  ⟨hnatural, fun t ht _ => hkind t ht⟩

theorem inner_punct {text : String} (h : text ∉ barriers) : Inner (·.isPunctuator text) := by
  refine ⟨fun _ => rfl, fun t _ hmem => ?_⟩
  have hne : t.text ≠ text := fun heq => h (heq ▸ hmem)
  rw [Token.isPunctuator, decide_eq_false hne, Bool.and_false]

theorem confined_punct {text : String} (h : text ∉ barriers) : Confined (punct text) :=
  .token (inner_punct h)

theorem confined_punctOf {texts : List String} (h : ∀ text ∈ barriers, text ∉ texts) :
    Confined (punctOf texts) := by
  refine .token ⟨fun _ => rfl, fun t _ hmem => ?_⟩
  rw [Bool.and_eq_false_iff, List.contains_eq_mem]
  exact .inr (decide_eq_false (h _ hmem))

theorem confined_word (text : String) : Confined (word text) :=
  .token (inner_of_kind (fun _ => rfl) fun t ht => by simp [Token.isKeyword, ht])

theorem confined_typeWord (text : String) : Confined (typeWord text) :=
  .token (inner_of_kind (fun _ => rfl) fun t ht => by simp [Token.isTypeKeyword, ht])

theorem confined_identifier : Confined identifier :=
  .token (inner_of_kind (fun _ => rfl) fun t ht => by simp [Token.isIdentifier, ht])

theorem confined_literal : Confined literal :=
  .token (inner_of_kind (fun _ => rfl) fun t ht => by
    simp [Token.isLiteral, ht, TokenKind.isLiteral])

theorem confined_simpleType : Confined simpleType :=
  .token (inner_of_kind (fun _ => rfl) fun t ht => by simp [ht])

theorem confined_level {operand : Rule} (hoperand : operand.isInner = true)
    {operators : List String} (h : ∀ text ∈ barriers, text ∉ operators) :
    Confined (level operand operators) := by
  refine .choice (.fold (.rule hoperand) ?_ naturalPair_mergeBinary) (.rule hoperand)
  exact .sequence (.cons (confined_punctOf h) (.cons (.rule hoperand) .nil)) natural_group

/-- The rules for the parts of a declaration are confined. -/
theorem confined_grammar {name : Rule} (h : name.isInner = true) : Confined name.grammar := by
  have hrule : ∀ {name : Rule}, name.isInner = true → Confined (.rule name) := .rule
  have hpunct : ∀ {text : String}, text ∉ barriers → Confined (punct text) := confined_punct
  cases name with
  | initializer =>
    refine .choice (.sequence ?_ (natural_pick 1)) .empty
    exact .cons (hpunct (by decide)) (.cons (hrule rfl) .nil)
  | arrayDim =>
    refine .sequence ?_ natural_dimension
    exact .cons (hpunct (by decide)) (.cons (.choice (hrule rfl) .empty)
      (.cons (hpunct (by decide)) .nil))
  | structType =>
    refine .sequence ?_ natural_structType
    exact .cons (confined_typeWord _) (.cons confined_identifier .nil)
  | typeName =>
    refine .fold (.choice (hrule rfl) confined_simpleType) ?_ naturalPair_joinTypes
    exact .choice (.choice (hrule rfl) confined_simpleType) (hpunct (by decide))
  | expression => exact .choice (.choice (hrule rfl) (hrule rfl)) .initList
  | assignment =>
    refine .sequence ?_ natural_assignment
    exact .cons (.choice (hrule rfl) (hrule rfl)) (.cons (confined_punctOf (by decide))
      (.cons (hrule rfl) .nil))
  | ternary =>
    refine .choice (.sequence ?_ (natural_nodeOf _ _)) (hrule rfl)
    exact .cons (hrule rfl) (.cons (hpunct (by decide)) (.cons (hrule rfl)
      (.cons (hpunct (by decide)) (.cons (hrule rfl) .nil))))
  | flat | shift | additive | multiplicative => exact confined_level rfl (by decide)
  | indirection => exact .prefixed (by decide) (hrule rfl)
  | unary =>
    -- Of the four kinds of choices of this rule, `sizeof` and casts are sequences; all others are
    -- an operator in front of a rule.
    have hsizeof : Confined (seq [(word "sizeof").step,
        (punct "(").orFail "Invalid sizeof operator: '(' is missed.",
        (Grammar.rule typeName).orFail "Invalid sizeof operator: type is missed.",
        (punct ")").orFail "Invalid sizeof operator: ')' is missed."] (nodeOf .sizeOf [2])) := by
      refine .sequence ?_ (natural_nodeOf _ _)
      exact .cons (confined_word _) (.cons (hpunct (by decide)) (.cons (hrule rfl)
        (.cons (hpunct (by decide)) .nil)))
    have hcast : Confined (seq [(punct "(").step, (Grammar.rule typeName).step, (punct ")").step,
        (Grammar.rule unary).step] (nodeOf .typeCast [1, 3])) := by
      refine .sequence ?_ (natural_nodeOf _ _)
      exact .cons (hpunct (by decide)) (.cons (hrule rfl) (.cons (hpunct (by decide))
        (.cons (hrule rfl) .nil)))
    have hprefixed : ∀ {operator : String} {operand : Rule} {label : Label},
        operator ∉ barriers → operand.isInner = true →
          Confined (.prefixed operator (.rule operand) label) :=
      fun hoperator hoperand => .prefixed hoperator (hrule hoperand)
    refine .choice (.choice (.choice ?_ hsizeof) hcast) (hrule rfl)
    refine .choice (.choice (.choice (.choice ?_ (hrule rfl)) ?_) ?_) ?_
    · refine .choice (.choice (.choice ?_ ?_) ?_) ?_ <;> exact hprefixed (by decide) rfl
    all_goals exact hprefixed (by decide) rfl
  | postfixed =>
    refine .choice (.choice (.choice ?_ ?_) ?_) (hrule rfl)
    · exact .suffixed (by decide) (hrule rfl)
    · exact .suffixed (by decide) (hrule rfl)
    · refine .sequence ?_ natural_call
      exact .cons (hrule rfl) (.cons (hpunct (by decide))
        (.listed (hrule rfl) (inner_punct (by decide))))
  | parens => exact .block (by decide) (by decide) (hrule rfl)
  | rvalue => exact .choice (.choice (hrule rfl) (hrule rfl)) confined_literal
  | access =>
    refine .choice (.choice ?_ ?_) ?_
    · refine .sequence ?_ (natural_nodeOf _ _)
      exact .cons (hpunct (by decide)) (.cons (hrule rfl) (.cons (hpunct (by decide)) .nil))
    all_goals
      refine .sequence ?_ (natural_nodeOf _ _)
      exact .cons (hpunct (by decide)) (.cons confined_identifier .nil)
  | lvalue =>
    refine .choice (.fold (.choice confined_identifier (hrule rfl)) (hrule rfl) ?_)
      confined_identifier
    exact naturalPair_applyAccess
  | _ => cases h

/-! ## Braces -/

section

variable {tokens : Array Token} {place mid next : Nat}

/-- Whether all braces between two places open lists of initializers. -/
def Opens (tokens : Array Token) (place next : Nat) : Prop :=
  ∀ k, place ≤ k → k < next → hasText tokens k "\x7b" = true →
    ∃ tree after, Matches Rule.table tokens initList k tree after

theorem opens_self (tokens : Array Token) (place : Nat) : Opens tokens place place :=
  fun _ hle hlt => absurd hle (Nat.not_le_of_lt hlt)

theorem Opens.append (h : Opens tokens place mid) (h' : Opens tokens mid next) :
    Opens tokens place next := by
  intro k hle hlt
  rcases Nat.lt_or_ge k mid with hless | hge
  · exact h k hle hless
  · exact h' k hge hlt

/-- A single token that is no brace. -/
theorem opens_succ (h : hasText tokens place "\x7b" = false) :
    Opens tokens place (place + 1) := by
  intro k hle hlt hbrace
  rw [Nat.le_antisymm (Nat.le_of_lt_succ hlt) hle, h] at hbrace
  cases hbrace

theorem opens_of_hasText {text : String} (htext : text ≠ "\x7b")
    (h : hasText tokens place text = true) : Opens tokens place (place + 1) := by
  obtain ⟨t, ht, rfl⟩ := exists_of_hasText h
  refine opens_succ ?_
  rw [hasText, ht]
  exact decide_eq_false htext

theorem opens_of_hasOperator {text : String} (htext : text ≠ "\x7b")
    (h : hasOperator tokens place text = true) : Opens tokens place (place + 1) := by
  obtain ⟨t, ht, rfl, -⟩ := exists_of_hasOperator h
  refine opens_succ ?_
  rw [hasText, ht]
  exact decide_eq_false htext

theorem ne_brace_of_not_mem {text : String} (h : text ∉ barriers) : text ≠ "\x7b" := by
  rintro rfl
  exact h (by decide)

theorem opens_of_token (hproper : ∀ t ∈ tokens, t.IsProper) {accepts : Token → Bool}
    (haccepts : Inner accepts) {t : Token} (ht : tokens[place]? = some t)
    (haccept : accepts t = true) : Opens tokens place (place + 1) := by
  refine opens_succ ?_
  rw [hasText, ht]
  refine decide_eq_false fun htext => ?_
  have hkind := hproper t (Array.mem_of_getElem? ht) (htext ▸ by decide)
  rw [haccepts.closed t hkind (htext ▸ by decide)] at haccept
  cases haccept

variable {M : G → Nat → Tree → Nat → Prop}

theorem opens_of_matchesFold {other : G} {merge : Tree → Tree → Tree} {tree result : Tree}
    (hother : ∀ place tree next, M other place tree next → Opens tokens place next)
    (h : MatchesFold M other merge tree place result next) : Opens tokens place next := by
  induction h with
  | done tree place => exact opens_self tokens place
  | more hpiece _ ih => exact (hother _ _ _ hpiece).append ih

theorem opens_of_matchesItems {element : G} {trees : List Tree}
    (helement : ∀ place tree next, M element place tree next → Opens tokens place next)
    (h : MatchesItems tokens M element (some ",") place trees next) : Opens tokens place next := by
  induction h with
  | nil place => exact opens_self tokens place
  | last htree => exact helement _ _ _ htree
  | more htree hseparator _ ih =>
    obtain ⟨hcomma, rfl⟩ := hseparator
    exact (helement _ _ _ htree).append ((opens_of_hasText (by decide) hcomma).append ih)

/-- What is known of the matches that are found with less than `fuel`. -/
def OpensBelow (tokens : Array Token) (fuel : Nat) : Prop :=
  ∀ less < fuel, ∀ (g : G) (place : Nat) (tree : Tree) (next : Nat), Confined g →
    plain Rule.table tokens less g place = .ok (some (tree, next)) → Opens tokens place next

theorem OpensBelow.of_within {fuel : Nat} (h : OpensBelow tokens fuel) {g : G} (hg : Confined g)
    (place : Nat) (tree : Tree) (next : Nat)
    (hmatch : Within Rule.table tokens fuel g place tree next) : Opens tokens place next := by
  obtain ⟨less, hless, hplain⟩ := hmatch
  exact h less hless g place tree next hg hplain

theorem OpensBelow.of_list {fuel : Nat} (h : OpensBelow tokens fuel) {element : G}
    (helement : Confined element) {label : Label} {canBeEmpty : Bool} {tree : Tree}
    (hmatch : Within Rule.table tokens fuel (.items element label (some ",") canBeEmpty) place tree
      next) : Opens tokens place next := by
  obtain ⟨less, hless, hplain⟩ := hmatch
  cases matchesBy_of_plain hplain with
  | items hitems hempty =>
    have hbelow : OpensBelow tokens less := fun least hleast =>
      h least (Nat.lt_trans hleast hless)
    exact opens_of_matchesItems (hbelow.of_within helement) hitems

theorem OpensBelow.of_steps {fuel : Nat} (h : OpensBelow tokens fuel) {steps : List (Step G)}
    (hsteps : ConfinedSteps steps) {trees : List Tree}
    (hmatch : MatchesSteps (Within Rule.table tokens fuel) steps place trees next) :
    Opens tokens place next := by
  induction hmatch with
  | nil place => exact opens_self tokens place
  | cons hstep _ ih =>
    cases hsteps with
    | cons hconfined hrest => exact (h.of_within hconfined _ _ _ hstep).append (ih hrest)
    | listed helement hclosing =>
      exact (h.of_list helement hstep).append (ih (.cons (.token hclosing) .nil))

/-- A confined grammar matches braces only where they open lists. -/
theorem opens_of_plain (hproper : ∀ t ∈ tokens, t.IsProper) {fuel : Nat} {g : G} {tree : Tree}
    (hg : Confined g) (h : plain Rule.table tokens fuel g place = .ok (some (tree, next))) :
    Opens tokens place next := by
  induction fuel using Nat.strongRecOn generalizing g place tree next with
  | ind fuel ih =>
    have hbelow : OpensBelow tokens fuel := fun less hless g place tree next hg hplain =>
      ih less hless hg hplain
    have hmatch := matchesBy_of_plain h
    cases hg with
    | token haccepts =>
      cases hmatch with
      | token ht haccept => exact opens_of_token hproper haccepts ht haccept
    | empty =>
      cases hmatch with
      | empty => exact opens_self tokens _
    | rule hinner =>
      cases hmatch with
      | rule hbody htree =>
        cases hbody
        exact hbelow.of_within (confined_grammar hinner) _ _ _ htree
    | choice hfirst hsecond =>
      cases hmatch with
      | first htree => exact hbelow.of_within hfirst _ _ _ htree
      | second htree => exact hbelow.of_within hsecond _ _ _ htree
    | sequence hsteps hf =>
      cases hmatch with
      | sequence hall hmerge => exact hbelow.of_steps hsteps hall
    | fold hfirst hother hmerge =>
      cases hmatch with
      | alone htree => exact hbelow.of_within hfirst _ _ _ htree
      | fold htree hpiece hrest =>
        have hothers := hbelow.of_within hother
        exact (hbelow.of_within hfirst _ _ _ htree).append
          ((hothers _ _ _ hpiece).append (opens_of_matchesFold hothers hrest))
    | block hopening hclosing hinner =>
      cases hmatch with
      | block hopen htree hclose =>
        have hfirst := opens_of_hasText (ne_brace_of_not_mem hopening) hopen
        have hlast := opens_of_hasText (ne_brace_of_not_mem hclosing) hclose
        exact hfirst.append ((hbelow.of_within hinner _ _ _ htree).append hlast)
    | initList =>
      -- The brace is where the list itself begins, so the match is that of the whole grammar.
      have hself : Matches Rule.table tokens initList place tree next := ⟨fuel, h⟩
      unfold initList at hmatch
      cases hmatch with
      | block hopen htree hclose =>
        have hfirst : Opens tokens place (place + 1) := fun k hle hlt _ => by
          rw [Nat.le_antisymm (Nat.le_of_lt_succ hlt) hle]
          exact ⟨_, _, hself⟩
        exact hfirst.append ((hbelow.of_list (.rule rfl) htree).append
          (opens_of_hasText (by decide) hclose))
    | prefixed hoperator hoperand =>
      cases hmatch with
      | prefixed hfirst htree =>
        exact (opens_of_hasOperator (ne_brace_of_not_mem hoperator) hfirst).append
          (hbelow.of_within hoperand _ _ _ htree)
    | suffixed hoperator hoperand =>
      cases hmatch with
      | suffixed htree hlast =>
        exact (hbelow.of_within hoperand _ _ _ htree).append
          (opens_of_hasOperator (ne_brace_of_not_mem hoperator) hlast)

end

end MiniC
