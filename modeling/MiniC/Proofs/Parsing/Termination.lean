import MiniC.Proofs.Parsing.Memo
import MiniC.Proofs.Parsing.Progress

set_option autoImplicit false

/-! # Every parse ends

A parse goes on in two ways: a grammar calls others before it has taken a token, or it takes one.
Where what is known of the rules is right (`Bounded`), the calls at one place lead to grammars of
less and less depth, so that none of them comes back to where it began, and the fuel that a parse
needs is a fixed amount for each token and the depth of its grammar. The rules of the language stand
in such an order, and the fuel for programs is more than enough for it. -/

namespace MiniC.Grammar

variable {ρ : Type}

section

variable (rules : ρ → Except ParseFailure (Grammar ρ)) (tokens : Array Token)

/-- Whether a grammar matches a tree from a place on, up to the place `next`. -/
def Matches (g : Grammar ρ) (place : Nat) (tree : Tree) (next : Nat) : Prop :=
  ∃ fuel, plain rules tokens fuel g place = .ok (some (tree, next))

/-- Whether an element of a list and the separator after it stand between two places. -/
def Passes (element : Grammar ρ) (separator : Option String) (place next : Nat) : Prop :=
  ∃ tree mid, Matches rules tokens element place tree mid ∧ Separates tokens separator mid next

/-- Whether matching a grammar at a place may involve matching another one at another place. -/
inductive Calls : Grammar ρ × Nat → Grammar ρ × Nat → Prop
  | rule {name : ρ} {body : Grammar ρ} {place : Nat} (hbody : rules name = .ok body) :
    Calls (.rule name, place) (body, place)
  | first (first second : Grammar ρ) (place : Nat) :
    Calls (.choice first second, place) (first, place)
  | second (first second : Grammar ρ) (place : Nat) :
    Calls (.choice first second, place) (second, place)
  | step {front rest : List (Step (Grammar ρ))} {step : Step (Grammar ρ)}
    {merge : List Tree → Except SyntaxError Tree} {place next : Nat} {trees : List Tree}
    (hfront : MatchesSteps (Matches rules tokens) front place trees next) :
    Calls (.sequence (front ++ step :: rest) merge, place) (step.grammar, next)
  | foldFirst (first other : Grammar ρ) (merge : Tree → Tree → Tree) (canBeAlone : Bool)
    (place : Nat) : Calls (.fold first other merge canBeAlone, place) (first, place)
  | foldOther {first other : Grammar ρ} {merge : Tree → Tree → Tree} {canBeAlone : Bool}
    {place mid next : Nat} {tree result : Tree} (hfirst : Matches rules tokens first place tree mid)
    (hothers : MatchesFold (Matches rules tokens) other merge tree mid result next) :
    Calls (.fold first other merge canBeAlone, place) (other, next)
  | block {opening closing : String} {inner : Grammar ρ} {label : Label} {place : Nat}
    (hopening : hasText tokens place opening = true) :
    Calls (.block opening closing inner label, place) (inner, place + 1)
  | items {element : Grammar ρ} {label : Label} {separator : Option String} {canBeEmpty : Bool}
    {place next : Nat}
    (hearlier : Relation.ReflTransGen (Passes rules tokens element separator) place next) :
    Calls (.items element label separator canBeEmpty, place) (element, next)
  | prefixed {operator : String} {operand : Grammar ρ} {label : Label} {place : Nat}
    (hoperator : hasOperator tokens place operator = true) :
    Calls (.prefixed operator operand label, place) (operand, place + 1)
  | suffixed (operand : Grammar ρ) (operator : String) (label : Label) (place : Nat) :
    Calls (.suffixed operand operator label, place) (operand, place)
  | ahead (inner : Grammar ρ) (text : String) (merge : Tree → Tree) (place : Nat) :
    Calls (.ahead inner text merge, place) (inner, place)

end

variable {rules : ρ → Except ParseFailure (Grammar ρ)} {tokens : Array Token}
  {nullable : ρ → Bool} {height : ρ → Nat} {width : Nat}

/-! ## Calls lead down or on -/

theorem Bounded.moves_of_matches (hbounded : Bounded rules nullable height width) (g : Grammar ρ)
    (place : Nat) (tree : Tree) (next : Nat) (h : Matches rules tokens g place tree next) :
    Moves tokens (g.mayBeEmpty nullable) place next := by
  obtain ⟨fuel, hplain⟩ := h
  exact hbounded.moves_of_plain hplain

theorem Moves.le {b : Bool} {place next : Nat} (h : Moves tokens b place next) : place ≤ next := by
  rcases h with ⟨hlt, -⟩ | ⟨heq, -⟩ <;> omega

theorem Moves.stay {b : Bool} {place next : Nat} (h : Moves tokens b place next)
    (heq : next = place) : b = true := by
  rcases h with ⟨hlt, -⟩ | ⟨-, hstay⟩
  · omega
  · exact hstay

theorem Bounded.le_of_passes (hbounded : Bounded rules nullable height width)
    {element : Grammar ρ} {separator : Option String} {place next : Nat}
    (h : Relation.ReflTransGen (Passes rules tokens element separator) place next) :
    place ≤ next := by
  induction h with
  | refl => exact Nat.le_refl place
  | tail _ hpass ih =>
    obtain ⟨tree, mid, hmatch, hseparator⟩ := hpass
    have helement := (hbounded.moves_of_matches _ _ _ _ hmatch).le
    exact Nat.le_trans ih (Nat.le_trans helement (moves_of_separates hseparator).le)

theorem depth_lt_of_mem_steps (nullable : ρ → Bool) (height : ρ → Nat)
    {front rest : List (Step (Grammar ρ))} {step : Step (Grammar ρ)}
    (h : mayBeEmpty.allMayBeEmpty nullable front = true) :
    step.grammar.depth nullable height
      < depth.depthOfSteps nullable height (front ++ step :: rest) := by
  induction front with
  | nil =>
    simp only [List.nil_append, depth.depthOfSteps]
    omega
  | cons s front ih =>
    simp only [mayBeEmpty.allMayBeEmpty, Bool.and_eq_true] at h
    simp only [List.cons_append, depth.depthOfSteps, h.1, if_true]
    have := ih h.2
    omega

/-- A call leads on to a later place, or to a grammar of less depth at the same place. -/
theorem Bounded.calls (hbounded : Bounded rules nullable height width)
    {caller callee : Grammar ρ × Nat} (h : Calls rules tokens caller callee) :
    caller.2 ≤ callee.2 ∧
      (callee.2 = caller.2 → callee.1.depth nullable height < caller.1.depth nullable height) := by
  cases h with
  | rule hbody =>
    have := hbounded.depth_le hbody
    exact ⟨Nat.le_refl _, fun _ => by simp only [depth]; omega⟩
  | first first second place => exact ⟨Nat.le_refl _, fun _ => by simp only [depth]; omega⟩
  | second first second place => exact ⟨Nat.le_refl _, fun _ => by simp only [depth]; omega⟩
  | step hfront =>
    have hmoves := moves_of_matchesSteps hbounded.moves_of_matches hfront
    refine ⟨hmoves.le, fun heq => ?_⟩
    simp only [depth]
    exact Nat.lt_succ_of_lt (depth_lt_of_mem_steps nullable height (hmoves.stay heq))
  | foldFirst first other merge canBeAlone place =>
    exact ⟨Nat.le_refl _, fun _ => by simp only [depth]; omega⟩
  | foldOther hfirst hothers =>
    have hfront := hbounded.moves_of_matches _ _ _ _ hfirst
    have hback := moves_of_matchesFold hbounded.moves_of_matches hothers
    refine ⟨Nat.le_trans hfront.le hback.le, fun heq => ?_⟩
    -- where nothing was taken so far, the first part was empty
    have hstay := (hfront.trans hback).stay heq
    simp only [depth, (Bool.and_eq_true_iff.mp hstay).1, if_true]
    omega
  | block _ => exact ⟨Nat.le_succ _, fun heq => absurd heq (Nat.succ_ne_self _)⟩
  | items hearlier =>
    exact ⟨hbounded.le_of_passes hearlier, fun _ => by simp only [depth]; omega⟩
  | prefixed _ => exact ⟨Nat.le_succ _, fun heq => absurd heq (Nat.succ_ne_self _)⟩
  | suffixed operand operator label place =>
    exact ⟨Nat.le_refl _, fun _ => by simp only [depth]; omega⟩
  | ahead inner text merge place => exact ⟨Nat.le_refl _, fun _ => by simp only [depth]; omega⟩

theorem Bounded.calls_trans (hbounded : Bounded rules nullable height width)
    {caller callee : Grammar ρ × Nat} (h : Relation.TransGen (Calls rules tokens) caller callee) :
    caller.2 ≤ callee.2 ∧
      (callee.2 = caller.2 → callee.1.depth nullable height < caller.1.depth nullable height) := by
  induction h with
  | single hcall => exact hbounded.calls hcall
  | tail _ hcall ih =>
    obtain ⟨hle, hless⟩ := hbounded.calls hcall
    refine ⟨Nat.le_trans ih.1 hle, fun heq => ?_⟩
    have hfront := ih.2 (by omega)
    have hback := hless (by omega)
    omega

/-- No chain of calls comes back to where it began. -/
theorem Bounded.not_calls_self (hbounded : Bounded rules nullable height width)
    (caller : Grammar ρ × Nat) : ¬ Relation.TransGen (Calls rules tokens) caller caller :=
  fun h => Nat.lt_irrefl _ ((hbounded.calls_trans h).2 rfl)

/-! ## Enough fuel -/

/-- Whether a computation gives a result, or a syntax error. -/
def Ends {α : Type} (x : Except ParseFailure α) : Prop :=
  ∀ failure, x = .error failure → ∃ e, failure = .error e

theorem ends_ok {α : Type} (a : α) : Ends (.ok a) := nofun

theorem ends_error {α : Type} (e : SyntaxError) : Ends (.error (.error e) : Except _ α) := by
  rintro failure ⟨⟩
  exact ⟨e, rfl⟩

theorem Ends.bind {α β : Type} {x : Except ParseFailure α} {f : α → Except ParseFailure β}
    (hx : Ends x) (hf : ∀ a, x = .ok a → Ends (f a)) : Ends (x >>= f) := by
  cases x with
  | error failure =>
    obtain ⟨e, rfl⟩ := hx failure rfl
    exact ends_error e
  | ok a => exact hf a rfl

/-- What is left to take is less by a whole token behind a match that has taken one. -/
theorem Moves.fuel {b : Bool} {place next depth fuel : Nat} (h : Moves tokens b place next)
    (hmoved : depth ≤ width) (hstay : b = true → width * (tokens.size - place) + depth ≤ fuel)
    (hfuel : width * (tokens.size - place) ≤ fuel) :
    width * (tokens.size - next) + depth ≤ fuel := by
  rcases h with ⟨hlt, hle⟩ | ⟨rfl, hb⟩
  · have hless : width * (tokens.size - next + 1) ≤ width * (tokens.size - place) :=
      Nat.mul_le_mul_left width (by omega)
    rw [Nat.mul_add, Nat.mul_one] at hless
    omega
  · exact hstay hb

theorem depth_pos (nullable : ρ → Bool) (height : ρ → Nat) (g : Grammar ρ) :
    0 < g.depth nullable height := by
  cases g <;> simp only [depth] <;> omega

theorem depthOfSteps_pos (nullable : ρ → Bool) (height : ρ → Nat)
    (steps : List (Step (Grammar ρ))) : 0 < depth.depthOfSteps nullable height steps := by
  cases steps <;> simp only [depth.depthOfSteps] <;> omega

mutual

/-- A parse ends within the fuel of its grammar and of the tokens that are left. -/
theorem ends_plain (hbounded : Bounded rules nullable height width) (fuel : Nat) (g : Grammar ρ)
    (place : Nat) (hg : g.progresses nullable height width = true)
    (hfuel : width * (tokens.size - place) + g.depth nullable height ≤ fuel) :
    Ends (plain rules tokens fuel g place) := by
  have hpos := depth_pos nullable height g
  cases fuel with
  | zero => omega
  | succ fuel =>
    cases g with
    | token accepts =>
      rw [plain]
      split
      · split <;> exact ends_ok _
      · exact ends_ok _
    | empty => exact ends_ok _
    | rule name =>
      obtain ⟨body, hbody⟩ := hbounded.exists_body name
      -- A rule takes no token: what gets smaller is the depth, since rules are ranked.
      have hless := hbounded.depth_le hbody
      simp only [depth] at hfuel
      rw [plain, hbody]
      exact ends_plain hbounded fuel body place (hbounded.progresses hbody) (by omega)
    | choice first second =>
      simp only [progresses, Bool.and_eq_true] at hg
      simp only [depth] at hfuel
      rw [plain]
      refine (ends_plain hbounded fuel first place hg.1 (by omega)).bind fun answer _ => ?_
      cases answer with
      | some answer => exact ends_ok _
      | none => exact ends_plain hbounded fuel second place hg.2 (by omega)
    | sequence steps merge =>
      simp only [depth] at hfuel
      rw [plain]
      refine (ends_plainSteps hbounded fuel steps [] place hg (by omega)).bind fun answer _ => ?_
      match answer with
      | none => exact ends_ok _
      | some (trees, next) =>
        dsimp only
        cases merge trees with
        | ok tree => exact ends_ok _
        | error e => exact ends_error e
    | fold first other merge canBeAlone =>
      simp only [progresses, Bool.and_eq_true, Bool.not_eq_true', decide_eq_true_eq] at hg
      simp only [depth] at hfuel
      rw [plain]
      refine (ends_plain hbounded fuel first place hg.1.1.1 (by omega)).bind fun answer hfirst => ?_
      match answer with
      | none => exact ends_ok _
      | some (tree, next) =>
        refine ends_plainFold hbounded fuel other merge canBeAlone tree next hg.1.1.2 hg.1.2 hg.2 ?_
        -- The first operand either took a token, which pays for the rest, or took none, and then
        -- the depth of the fold counts the other operands.
        refine (hbounded.moves_of_plain hfirst).fuel hg.2 (fun hstay => ?_) (by omega)
        rw [if_pos hstay] at hfuel
        omega
    | block opening closing inner label =>
      simp only [progresses, Bool.and_eq_true, decide_eq_true_eq] at hg
      simp only [depth] at hfuel
      rw [plain]
      split
      next hopening =>
        -- The opening word was taken, so that one token less is left for what the block encloses.
        have hinner := (moves_of_hasText hopening false).fuel hg.2 nofun
          (Nat.le_of_succ_le_succ hfuel)
        refine (ends_plain hbounded fuel inner (place + 1) hg.1 hinner).bind fun answer _ => ?_
        match answer with
        | none => exact ends_ok _
        | some (tree, next) =>
          dsimp only
          split <;> exact ends_ok _
      · exact ends_ok _
    | items element label separator canBeEmpty =>
      simp only [progresses, Bool.and_eq_true, Bool.or_eq_true, Bool.not_eq_true',
        decide_eq_true_eq] at hg
      simp only [depth] at hfuel
      rw [plain]
      refine (ends_plainItems hbounded fuel element separator [] place hg.1.1 hg.1.2 hg.2
        (by omega)).bind fun answer _ => ?_
      match answer with
      | none => exact ends_ok _
      | some (trees, next) =>
        dsimp only
        split <;> exact ends_ok _
    | prefixed operator operand label =>
      simp only [progresses, Bool.and_eq_true, decide_eq_true_eq] at hg
      simp only [depth] at hfuel
      rw [plain]
      split
      next hoperator =>
        have hoperand := (moves_of_hasOperator hoperator false).fuel hg.2 nofun
          (Nat.le_of_succ_le_succ hfuel)
        refine (ends_plain hbounded fuel operand (place + 1) hg.1 hoperand).bind fun answer _ => ?_
        match answer with
        | none => exact ends_ok _
        | some (tree, next) => exact ends_ok _
      · exact ends_ok _
    | suffixed operand operator label =>
      simp only [depth] at hfuel
      rw [plain]
      refine (ends_plain hbounded fuel operand place hg (by omega)).bind fun answer _ => ?_
      match answer with
      | none => exact ends_ok _
      | some (tree, next) =>
        dsimp only
        split <;> exact ends_ok _
    | ahead inner text merge =>
      simp only [depth] at hfuel
      rw [plain]
      refine (ends_plain hbounded fuel inner place hg (by omega)).bind fun answer _ => ?_
      match answer with
      | none => exact ends_ok _
      | some (tree, next) =>
        dsimp only
        split <;> exact ends_ok _

theorem ends_plainSteps (hbounded : Bounded rules nullable height width) (fuel : Nat)
    (steps : List (Step (Grammar ρ))) (earlier : List Tree) (place : Nat)
    (hsteps : progresses.allProgress nullable height width steps = true)
    (hfuel : width * (tokens.size - place) + depth.depthOfSteps nullable height steps ≤ fuel) :
    Ends (plainSteps rules tokens fuel steps earlier place) := by
  have hpos := depthOfSteps_pos nullable height steps
  cases fuel with
  | zero => omega
  | succ fuel =>
    cases steps with
    | nil => exact ends_ok _
    | cons step rest =>
      simp only [progresses.allProgress, Bool.and_eq_true, decide_eq_true_eq] at hsteps
      simp only [depth.depthOfSteps] at hfuel
      rw [plainSteps]
      refine (ends_plain hbounded fuel step.grammar place hsteps.1.1 (by omega)).bind
        fun answer hstep => ?_
      match answer with
      | some (tree, next) =>
        refine ends_plainSteps hbounded fuel rest (tree :: earlier) next hsteps.1.2 ?_
        refine (hbounded.moves_of_plain hstep).fuel hsteps.2 (fun hstay => ?_) (by omega)
        rw [if_pos hstay] at hfuel
        omega
      | none =>
        dsimp only
        cases step.message with
        | none => exact ends_ok _
        | some message => exact ends_error _

theorem ends_plainFold (hbounded : Bounded rules nullable height width) (fuel : Nat)
    (other : Grammar ρ) (merge : Tree → Tree → Tree) (isAnswer : Bool) (tree : Tree) (place : Nat)
    (hother : other.progresses nullable height width = true)
    (htakes : other.mayBeEmpty nullable = false)
    (hwidth : other.depth nullable height + 1 ≤ width)
    (hfuel : width * (tokens.size - place) + (other.depth nullable height + 1) ≤ fuel) :
    Ends (plainFold rules tokens fuel other merge isAnswer tree place) := by
  cases fuel with
  | zero => omega
  | succ fuel =>
    rw [plainFold]
    refine (ends_plain hbounded fuel other place hother (by omega)).bind fun answer hpiece => ?_
    match answer with
    | some (piece, next) =>
      refine ends_plainFold hbounded fuel other merge true (merge tree piece) next hother htakes
        hwidth ?_
      refine (hbounded.moves_of_plain hpiece).fuel hwidth (fun hstay => ?_) (by omega)
      exact absurd (htakes.symm.trans hstay) nofun
    | none =>
      dsimp only
      split <;> exact ends_ok _

theorem ends_plainItems (hbounded : Bounded rules nullable height width) (fuel : Nat)
    (element : Grammar ρ) (separator : Option String) (earlier : List Tree) (place : Nat)
    (helement : element.progresses nullable height width = true)
    (htakes : separator.isSome = true ∨ element.mayBeEmpty nullable = false)
    (hwidth : element.depth nullable height + 1 ≤ width)
    (hfuel : width * (tokens.size - place) + (element.depth nullable height + 1) ≤ fuel) :
    Ends (plainItems rules tokens fuel element separator earlier place) := by
  cases fuel with
  | zero => omega
  | succ fuel =>
    rw [plainItems]
    refine (ends_plain hbounded fuel element place helement (by omega)).bind fun answer hmatch => ?_
    match answer, separator with
    | none, _ =>
      dsimp only
      split <;> exact ends_ok _
    | some (tree, next), none =>
      refine ends_plainItems hbounded fuel element none (tree :: earlier) next helement htakes
        hwidth ?_
      refine (hbounded.moves_of_plain hmatch).fuel hwidth (fun hstay => ?_) (by omega)
      exact absurd ((htakes.resolve_left nofun).symm.trans hstay) nofun
    | some (tree, next), some text =>
      dsimp only
      split
      next htext =>
        refine ends_plainItems hbounded fuel element (some text) (tree :: earlier) (next + 1)
          helement htakes hwidth ?_
        have hmoves := (hbounded.moves_of_plain hmatch).trans (moves_of_hasText htext false)
        refine hmoves.fuel hwidth (fun hstay => ?_) (by omega)
        exact absurd ((Bool.and_eq_true_iff.mp hstay).2) nofun
      · exact ends_ok _

end

end MiniC.Grammar

namespace MiniC

open Grammar

/-! ## The rules of the language -/

namespace Rule

/-- Whether a rule may match without taking a token. -/
def mayBeEmpty : Rule → Bool
  | .program | .parameters | .lines | .initializer | .pointerMarks | .arrayDims => true
  | _ => false

/-- The place of a rule in an order of the rules, in which a rule calls only rules in front of it
before it has taken a token. -/
def tier : Rule → Nat
  | .ifChain | .arrayDims | .typeName | .lvalue => 2
  | .functionDecl | .functionPrototype | .variableDecl | .assignment | .rvalue => 3
  | .structField | .parameters | .variableCreation | .postfixed => 4
  | .program | .unary => 5
  | .multiplicative => 6
  | .additive => 7
  | .shift => 8
  | .flat => 9
  | .ternary => 10
  | .expression => 11
  | .instruction => 12
  | .line => 13
  | .statement | .lines => 14
  | .body => 15
  | _ => 1

/-- How deep the calls of a rule nest at the place where it begins. -/
def height (name : Rule) : Nat := 20 * name.tier

theorem bounded : Bounded (fun name => .ok (Rule.grammar name)) mayBeEmpty height 1000 where
  exists_body name := ⟨name.grammar, rfl⟩
  nullable_of := by
    rintro name body ⟨⟩
    cases name <;> decide
  depth_le := by
    rintro name body ⟨⟩
    cases name <;> decide
  progresses := by
    rintro name body ⟨⟩
    cases name <;> decide

end Rule

theorem ends_program (tokens : Array Token) : Ends (plain (fun name => .ok (Rule.grammar name))
    tokens (parseFuel tokens.size) (.rule .program) 0) := by
  refine ends_plain Rule.bounded _ _ _ rfl ?_
  have hdepth : (Grammar.rule Rule.program).depth Rule.mayBeEmpty Rule.height = 101 := rfl
  rw [hdepth, parseFuel]
  omega

/-- The memo is of no importance for what the rule for programs matches. -/
theorem matchProgram_eq (tokens : Array Token) : matchProgram tokens =
    plain (fun name => .ok (Rule.grammar name)) tokens (parseFuel tokens.size) (.rule .program) 0 :=
  run_parse_of_plain rfl fun h => by
    obtain ⟨e, he⟩ := ends_program tokens _ h
    cases he

/-- The tree of tokens is what the rule for programs matches, up to the last token. -/
theorem exists_of_parseTree {tokens : List Token} {tree : Tree} (h : parseTree tokens = .ok tree) :
    ∃ matched, tree = matched.numbered ∧ plain (fun name => .ok (Rule.grammar name)) tokens.toArray
      (parseFuel tokens.length) (.rule .program) 0 = .ok (some (matched, tokens.length)) := by
  have hmatch := matchProgram_eq tokens.toArray
  rw [List.size_toArray] at hmatch
  rw [← hmatch]
  simp only [parseTree, List.size_toArray] at h
  split at h
  · cases h
  · cases h
  next matched place hprogram =>
    split at h
    next hplace =>
      cases h
      exact ⟨matched, rfl, hplace ▸ hprogram⟩
    · cases h

theorem exists_items_of_matches {tokens : Array Token} {fuel place next : Nat} {tree : Tree}
    (h : plain (fun name => .ok (Rule.grammar name)) tokens fuel (.rule .program) place
      = .ok (some (tree, next))) : ∃ items, tree = .node .program items := by
  cases matchesBy_of_plain h with
  | rule hbody htree =>
    cases hbody
    obtain ⟨less, -, hitems⟩ := htree
    cases matchesBy_of_plain hitems with
    | items _ _ => exact ⟨_, rfl⟩

/-- For all lists of tokens there is a tree of a program or a syntax error. No rule calls itself at
the place where it was called, whatever the rules in between, and whatever the rules repeat without
a separator, or add to a fold, takes a token each time that it matches. -/
theorem parseTree_ends (tokens : List Token) :
    ((∃ items, parseTree tokens = .ok (.node .program items)) ∨
        ∃ e, parseTree tokens = .error (.error e)) ∧
      (∀ name place, ¬ Relation.TransGen
        (Calls (fun name => .ok (Rule.grammar name)) tokens.toArray)
        (.rule name, place) (.rule name, place)) ∧
      ∀ (name : Rule) (g part : Grammar Rule), (Rule.grammar name).Contains g → part ∈ g.repeated →
        ∀ place tree next,
          Matches (fun name => .ok (Rule.grammar name)) tokens.toArray part place tree next →
          place < next := by
  refine ⟨?_, fun name place => Rule.bounded.not_calls_self _, ?_⟩
  · cases htree : parseTree tokens with
    | ok tree =>
      obtain ⟨matched, rfl, hmatched⟩ := exists_of_parseTree htree
      obtain ⟨items, rfl⟩ := exists_items_of_matches hmatched
      exact .inl ⟨_, rfl⟩
    | error failure =>
      refine .inr ?_
      have hmatch := matchProgram_eq tokens.toArray
      simp only [parseTree] at htree
      split at htree
      next failure' hfailure =>
        obtain ⟨e, rfl⟩ := ends_program tokens.toArray failure' (hmatch ▸ hfailure)
        cases htree
        exact ⟨e, rfl⟩
      · cases htree
        exact ⟨_, rfl⟩
      next matched place hprogram =>
        split at htree <;> cases htree
        exact ⟨_, rfl⟩
  · intro name g part hcontains hpart place tree next hmatch
    have hprogresses := progresses_of_contains (Rule.bounded.progresses rfl) hcontains
    rcases Rule.bounded.moves_of_matches _ _ _ _ hmatch with ⟨hlt, -⟩ | ⟨-, hstay⟩
    · exact hlt
    · rw [mayBeEmpty_of_mem_repeated hprogresses hpart] at hstay
      cases hstay

end MiniC
