import Mathlib.Order.Filter.AtTopBot.Basic
import MiniC.Proofs.Parsing.Termination

set_option autoImplicit false

/-! # Answers without fuel

What a grammar answers at a place if it has fuel enough, put together from what its parts answer.
This is how a parse that is known to end is followed step by step, and the attempts that match
nothing are part of it. -/

namespace MiniC.Grammar

open Filter

variable {ρ : Type}

section

variable (rules : ρ → Except ParseFailure (Grammar ρ)) (tokens : Array Token)

/-- Whether a grammar has an answer at a place, with fuel enough. -/
def Gives (g : Grammar ρ) (place : Nat) (answer : Match) : Prop :=
  ∀ᶠ fuel in atTop, plain rules tokens fuel g place = .ok answer

/-- Whether steps have an answer at a place, behind the trees `earlier`, with fuel enough. -/
def GivesSteps (steps : List (Step (Grammar ρ))) (earlier : List Tree) (place : Nat)
    (answer : Option (List Tree × Nat)) : Prop :=
  ∀ᶠ fuel in atTop, plainSteps rules tokens fuel steps earlier place = .ok answer

/-- Whether a fold goes on to an answer from the tree that it has at a place, with fuel enough. -/
def GivesFold (other : Grammar ρ) (merge : Tree → Tree → Tree) (isAnswer : Bool) (tree : Tree)
    (place : Nat) (answer : Match) : Prop :=
  ∀ᶠ fuel in atTop, plainFold rules tokens fuel other merge isAnswer tree place = .ok answer

/-- Whether a list has an answer at a place, behind the trees `earlier`, with fuel enough. -/
def GivesItems (element : Grammar ρ) (separator : Option String) (earlier : List Tree)
    (place : Nat) (answer : Option (List Tree × Nat)) : Prop :=
  ∀ᶠ fuel in atTop, plainItems rules tokens fuel element separator earlier place = .ok answer

end

variable {rules : ρ → Except ParseFailure (Grammar ρ)} {tokens : Array Token}

theorem eventually_of_succ {P : Nat → Prop} (h : ∀ᶠ fuel in atTop, P (fuel + 1)) :
    ∀ᶠ fuel in atTop, P fuel := by
  rw [← map_add_atTop_eq_nat 1]
  exact h

/-! ## Fuel -/

theorem eventually_of_below {α : Type} {f : Nat → Except ParseFailure α}
    (hf : ∀ fuel, Below (f fuel) (f (fuel + 1))) {fuel : Nat} {a : α} (h : f fuel = .ok a) :
    ∀ᶠ fuel in atTop, f fuel = .ok a := by
  refine eventually_atTop.mpr ⟨fuel, fun fuel' hle => ?_⟩
  induction hle with
  | refl => exact h
  | @step fuel' hle ih =>
    rcases hf fuel' with hsame | hsame
    · rw [ih] at hsame
      cases hsame
    · exact hsame.symm.trans ih

theorem gives_of_plain {fuel place : Nat} {g : Grammar ρ} {answer : Match}
    (h : plain rules tokens fuel g place = .ok answer) : Gives rules tokens g place answer :=
  eventually_of_below (fun fuel => plain_succ fuel g place) h

theorem givesItems_of_plainItems {fuel place : Nat} {element : Grammar ρ}
    {separator : Option String} {earlier : List Tree} {answer : Option (List Tree × Nat)}
    (h : plainItems rules tokens fuel element separator earlier place = .ok answer) :
    GivesItems rules tokens element separator earlier place answer :=
  eventually_of_below (fun fuel => plainItems_succ fuel element separator earlier place) h

theorem Gives.plain_eq {fuel place : Nat} {g : Grammar ρ} {answer : Match}
    (h : Gives rules tokens g place answer)
    (hends : plain rules tokens fuel g place ≠ .error .exhausted) :
    plain rules tokens fuel g place = .ok answer := by
  obtain ⟨fuel', h'⟩ := h.exists
  exact plain_unique h' hends

theorem Gives.unique {place : Nat} {g : Grammar ρ} {answer answer' : Match}
    (h : Gives rules tokens g place answer) (h' : Gives rules tokens g place answer') :
    answer = answer' := by
  obtain ⟨fuel, hplain, hplain'⟩ := (h.and h').exists
  exact Except.ok.inj (hplain.symm.trans hplain')

theorem GivesItems.unique {place : Nat} {element : Grammar ρ} {separator : Option String}
    {earlier : List Tree} {answer answer' : Option (List Tree × Nat)}
    (h : GivesItems rules tokens element separator earlier place answer)
    (h' : GivesItems rules tokens element separator earlier place answer') : answer = answer' := by
  obtain ⟨fuel, hplain, hplain'⟩ := (h.and h').exists
  exact Except.ok.inj (hplain.symm.trans hplain')

/-! ## Grammars -/

section

variable {place mid next : Nat} {tree : Tree}

theorem gives_token {accepts : Token → Bool} {t : Token} (ht : tokens[place]? = some t)
    (haccepts : accepts t = true) :
    Gives rules tokens (.token accepts) place (some (.leaf t 0, place + 1)) :=
  eventually_of_succ (.of_forall fun fuel => by
    rw [plain, ht]
    exact if_pos haccepts)

theorem gives_not_token {accepts : Token → Bool}
    (h : ∀ t, tokens[place]? = some t → accepts t = false) :
    Gives rules tokens (.token accepts) place none :=
  eventually_of_succ (.of_forall fun fuel => by
    rw [plain]
    split
    next t ht => exact if_neg (by rw [h t ht]; exact Bool.false_ne_true)
    · rfl)

theorem gives_empty : Gives rules tokens .empty place (some (.empty, place)) :=
  eventually_of_succ (.of_forall fun _ => rfl)

theorem Gives.rule {name : ρ} {body : Grammar ρ} {answer : Match} (hbody : rules name = .ok body)
    (h : Gives rules tokens body place answer) :
    Gives rules tokens (.rule name) place answer := by
  refine eventually_of_succ (h.mono fun fuel hplain => ?_)
  rw [plain, hbody]
  exact hplain

theorem Gives.first {first : Grammar ρ} (h : Gives rules tokens first place (some (tree, next)))
    (second : Grammar ρ) :
    Gives rules tokens (.choice first second) place (some (tree, next)) := by
  refine eventually_of_succ (h.mono fun fuel hplain => ?_)
  rw [plain, hplain]
  rfl

theorem Gives.second {first second : Grammar ρ} {answer : Match}
    (h : Gives rules tokens first place none) (h' : Gives rules tokens second place answer) :
    Gives rules tokens (.choice first second) place answer := by
  refine eventually_of_succ ((h.and h').mono fun fuel hplain => ?_)
  rw [plain, hplain.1]
  exact hplain.2

theorem gives_not_block {opening closing : String} {inner : Grammar ρ} {label : Label}
    (h : hasText tokens place opening = false) :
    Gives rules tokens (.block opening closing inner label) place none :=
  eventually_of_succ (.of_forall fun fuel => by
    rw [plain, h]
    rfl)

/-! ## Sequences -/

variable {steps : List (Step (Grammar ρ))} {step : Step (Grammar ρ)} {earlier : List Tree}

theorem givesSteps_nil : GivesSteps rules tokens [] earlier place (some (earlier.reverse, place)) :=
  eventually_of_succ (.of_forall fun _ => rfl)

theorem GivesSteps.cons {answer : Option (List Tree × Nat)}
    (h : Gives rules tokens step.grammar place (some (tree, mid)))
    (h' : GivesSteps rules tokens steps (tree :: earlier) mid answer) :
    GivesSteps rules tokens (step :: steps) earlier place answer := by
  refine eventually_of_succ ((h.and h').mono fun fuel hplain => ?_)
  rw [plainSteps, hplain.1]
  exact hplain.2

theorem Gives.notSteps (h : Gives rules tokens step.grammar place none)
    (hmessage : step.message = none) :
    GivesSteps rules tokens (step :: steps) earlier place none := by
  obtain ⟨g, message⟩ := step
  cases hmessage
  refine eventually_of_succ (h.mono fun fuel hplain => ?_)
  rw [plainSteps, hplain]
  rfl

theorem GivesSteps.sequence {merge : List Tree → Except SyntaxError Tree} {trees : List Tree}
    (h : GivesSteps rules tokens steps [] place (some (trees, next)))
    (hmerge : merge trees = .ok tree) :
    Gives rules tokens (.sequence steps merge) place (some (tree, next)) := by
  refine eventually_of_succ (h.mono fun fuel hplain => ?_)
  rw [plain, hplain]
  dsimp only [Bind.bind, Except.bind]
  rw [hmerge]
  rfl

theorem GivesSteps.notSequence {merge : List Tree → Except SyntaxError Tree}
    (h : GivesSteps rules tokens steps [] place none) :
    Gives rules tokens (.sequence steps merge) place none := by
  refine eventually_of_succ (h.mono fun fuel hplain => ?_)
  rw [plain, hplain]
  rfl

/-! ## Folds -/

variable {other : Grammar ρ} {merge : Tree → Tree → Tree} {isAnswer : Bool} {answer : Match}

theorem Gives.foldEnd (h : Gives rules tokens other place none) (tree : Tree) :
    GivesFold rules tokens other merge true tree place (some (tree, place)) := by
  refine eventually_of_succ (h.mono fun fuel hplain => ?_)
  rw [plainFold, hplain]
  rfl

theorem GivesFold.more {piece : Tree} (h : Gives rules tokens other place (some (piece, mid)))
    (h' : GivesFold rules tokens other merge true (merge tree piece) mid answer) :
    GivesFold rules tokens other merge isAnswer tree place answer := by
  refine eventually_of_succ ((h.and h').mono fun fuel hplain => ?_)
  rw [plainFold, hplain.1]
  exact hplain.2

theorem GivesFold.fold {first : Grammar ρ}
    (h : Gives rules tokens first place (some (tree, mid)))
    (h' : GivesFold rules tokens other merge isAnswer tree mid answer) :
    Gives rules tokens (.fold first other merge isAnswer) place answer := by
  refine eventually_of_succ ((h.and h').mono fun fuel hplain => ?_)
  rw [plain, hplain.1]
  exact hplain.2

theorem Gives.notFold {first : Grammar ρ} (h : Gives rules tokens first place none) :
    Gives rules tokens (.fold first other merge isAnswer) place none := by
  refine eventually_of_succ (h.mono fun fuel hplain => ?_)
  rw [plain, hplain]
  rfl

/-! ## Lists without separators -/

variable {element : Grammar ρ} {elements : Option (List Tree × Nat)}

theorem Gives.itemsEnd (h : Gives rules tokens element place none) (earlier : List Tree) :
    GivesItems rules tokens element none earlier place (some (earlier.reverse, place)) := by
  refine eventually_of_succ (h.mono fun fuel hplain => ?_)
  rw [plainItems, hplain]
  rfl

theorem GivesItems.more (h : Gives rules tokens element place (some (tree, mid)))
    (h' : GivesItems rules tokens element none (tree :: earlier) mid elements) :
    GivesItems rules tokens element none earlier place elements := by
  refine eventually_of_succ ((h.and h').mono fun fuel hplain => ?_)
  rw [plainItems, hplain.1]
  exact hplain.2

theorem GivesItems.items {label : Label} {trees : List Tree}
    (h : GivesItems rules tokens element none [] place (some (trees, next))) :
    Gives rules tokens (.items element label none true) place (some (.node label trees, next)) := by
  refine eventually_of_succ (h.mono fun fuel hplain => ?_)
  rw [plain, hplain]
  change (if trees.isEmpty && !true then pure none else _) = _
  rw [Bool.not_true, Bool.and_false]
  rfl

end

end MiniC.Grammar
