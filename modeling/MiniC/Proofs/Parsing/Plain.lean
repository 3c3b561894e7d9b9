import MiniC.Grammar.Parse

set_option autoImplicit false

/-! # Parsing without a memo

What the same grammars match if every rule is tried again wherever it is named. A parse with a memo
that holds only what rules match gives the same answer, whenever the one without a memo ends within
its fuel, and leaves such a memo behind. -/

namespace MiniC.Grammar

variable {ρ : Type}

/-! ## The parse -/

section

variable (rules : ρ → Except ParseFailure (Grammar ρ)) (tokens : Array Token)

mutual

/-- What a grammar matches at a place. -/
def plain : Nat → Grammar ρ → Nat → Except ParseFailure Match
  | 0, _, _ => .error .exhausted
  | fuel + 1, g, place =>
    match g with
    | .token accepts =>
      match tokens[place]? with
      | some t => if accepts t then pure (some (.leaf t 0, place + 1)) else pure none
      | none => pure none
    | .empty => pure (some (.empty, place))
    | .rule name => do
      let body ← rules name
      plain fuel body place
    | .choice first second => do
      match ← plain fuel first place with
      | some answer => pure (some answer)
      | none => plain fuel second place
    | .sequence steps merge => do
      match ← plainSteps fuel steps [] place with
      | none => pure none
      | some (trees, next) =>
        match merge trees with
        | .ok tree => pure (some (tree, next))
        | .error e => throw (.error e)
    | .fold first other merge canBeAlone => do
      match ← plain fuel first place with
      | none => pure none
      | some (tree, next) => plainFold fuel other merge canBeAlone tree next
    | .block opening closing inner label =>
      if hasText tokens place opening then do
        match ← plain fuel inner (place + 1) with
        | none => pure none
        | some (tree, next) =>
          if hasText tokens next closing then pure (some (.node label [tree], next + 1))
          else pure none
      else pure none
    | .items element label separator canBeEmpty => do
      match ← plainItems fuel element separator [] place with
      | none => pure none
      | some (trees, next) =>
        if trees.isEmpty && !canBeEmpty then pure none
        else pure (some (.node label trees, next))
    | .prefixed operator operand label =>
      if hasOperator tokens place operator then do
        match ← plain fuel operand (place + 1) with
        | none => pure none
        | some (tree, next) => pure (some (.node label [tree], next))
      else pure none
    | .suffixed operand operator label => do
      match ← plain fuel operand place with
      | none => pure none
      | some (tree, next) =>
        if hasOperator tokens next operator then pure (some (.node label [tree], next + 1))
        else pure none
    | .ahead inner text merge => do
      match ← plain fuel inner place with
      | none => pure none
      | some (tree, next) =>
        if hasText tokens next text then pure (some (merge tree, next)) else pure none
termination_by structural fuel => fuel

/-- What the steps of a sequence match at a place, where the steps in front of them matched
`earlier`, last one first. -/
def plainSteps : Nat → List (Step (Grammar ρ)) → List Tree → Nat →
    Except ParseFailure (Option (List Tree × Nat))
  | 0, _, _, _ => .error .exhausted
  | fuel + 1, steps, earlier, place =>
    match steps with
    | [] => pure (some (earlier.reverse, place))
    | step :: rest => do
      match ← plain fuel step.grammar place with
      | some (tree, next) => plainSteps fuel rest (tree :: earlier) next
      | none =>
        match step.message with
        | none => pure none
        | some message => throw (.error ⟨.committed message place, errorPos tokens place⟩)

/-- What a fold matches, where it has matched `tree` up to a place; `isAnswer` says whether that is
enough. -/
def plainFold : Nat → Grammar ρ → (Tree → Tree → Tree) → Bool → Tree → Nat →
    Except ParseFailure Match
  | 0, _, _, _, _, _ => .error .exhausted
  | fuel + 1, other, merge, isAnswer, tree, place => do
    match ← plain fuel other place with
    | some (next, after) => plainFold fuel other merge true (merge tree next) after
    | none => if isAnswer then pure (some (tree, place)) else pure none

/-- The elements of a list from a place on, where the elements `earlier` stand in front of them,
last one first. -/
def plainItems : Nat → Grammar ρ → Option String → List Tree → Nat →
    Except ParseFailure (Option (List Tree × Nat))
  | 0, _, _, _, _ => .error .exhausted
  | fuel + 1, element, separator, earlier, place => do
    match ← plain fuel element place with
    | none =>
      if separator.isSome && !earlier.isEmpty then pure none
      else pure (some (earlier.reverse, place))
    | some (tree, next) =>
      match separator with
      | none => plainItems fuel element separator (tree :: earlier) next
      | some text =>
        if hasText tokens next text then
          plainItems fuel element separator (tree :: earlier) (next + 1)
        else pure (some ((tree :: earlier).reverse, next))

end

end

/-! ## More fuel -/

section

variable {rules : ρ → Except ParseFailure (Grammar ρ)} {tokens : Array Token} {α β : Type}

/-- Whether a parse ends as another one does, unless it takes more steps than it is allowed. -/
def Below (x y : Except ParseFailure α) : Prop :=
  x = .error .exhausted ∨ x = y

theorem below_refl (x : Except ParseFailure α) : Below x x :=
  .inr rfl

theorem Below.trans {x y z : Except ParseFailure α} (hxy : Below x y) (hyz : Below y z) :
    Below x z := by
  rcases hxy with rfl | rfl
  · exact .inl rfl
  · exact hyz

theorem Below.bind {x y : Except ParseFailure α} {f g : α → Except ParseFailure β}
    (hxy : Below x y) (hfg : ∀ a, Below (f a) (g a)) : Below (x >>= f) (y >>= g) := by
  rcases hxy with rfl | rfl
  · exact .inl rfl
  · cases x with
    | ok a => exact hfg a
    | error e => exact below_refl _

theorem Below.ite {c : Prop} [Decidable c] {x y x' y' : Except ParseFailure α}
    (hx : Below x x') (hy : Below y y') : Below (if c then x else y) (if c then x' else y') := by
  split
  · exact hx
  · exact hy

mutual

theorem plain_succ (fuel : Nat) (g : Grammar ρ) (place : Nat) :
    Below (plain rules tokens fuel g place) (plain rules tokens (fuel + 1) g place) := by
  cases fuel with
  | zero => exact .inl rfl
  | succ fuel =>
    cases g with
    | token accepts => exact below_refl _
    | empty => exact below_refl _
    | rule name => exact (below_refl _).bind fun body => plain_succ fuel body place
    | choice first second =>
      refine (plain_succ fuel first place).bind fun answer => ?_
      cases answer with
      | some answer => exact below_refl _
      | none => exact plain_succ fuel second place
    | sequence steps merge =>
      exact (plainSteps_succ fuel steps [] place).bind fun _ => below_refl _
    | fold first other merge canBeAlone =>
      refine (plain_succ fuel first place).bind fun answer => ?_
      match answer with
      | none => exact below_refl _
      | some (tree, next) => exact plainFold_succ fuel other merge canBeAlone tree next
    | block opening closing inner label =>
      refine .ite ?_ (below_refl _)
      exact (plain_succ fuel inner (place + 1)).bind fun _ => below_refl _
    | items element label separator canBeEmpty =>
      exact (plainItems_succ fuel element separator [] place).bind fun _ => below_refl _
    | prefixed operator operand label =>
      refine .ite ?_ (below_refl _)
      exact (plain_succ fuel operand (place + 1)).bind fun _ => below_refl _
    | suffixed operand operator label =>
      exact (plain_succ fuel operand place).bind fun _ => below_refl _
    | ahead inner text merge =>
      exact (plain_succ fuel inner place).bind fun _ => below_refl _

theorem plainSteps_succ (fuel : Nat) (steps : List (Step (Grammar ρ))) (earlier : List Tree)
    (place : Nat) : Below (plainSteps rules tokens fuel steps earlier place)
      (plainSteps rules tokens (fuel + 1) steps earlier place) := by
  cases fuel with
  | zero => exact .inl rfl
  | succ fuel =>
    cases steps with
    | nil => exact below_refl _
    | cons step rest =>
      refine (plain_succ fuel step.grammar place).bind fun answer => ?_
      match answer with
      | some (tree, next) => exact plainSteps_succ fuel rest (tree :: earlier) next
      | none => exact below_refl _

theorem plainFold_succ (fuel : Nat) (other : Grammar ρ) (merge : Tree → Tree → Tree)
    (isAnswer : Bool) (tree : Tree) (place : Nat) :
    Below (plainFold rules tokens fuel other merge isAnswer tree place)
      (plainFold rules tokens (fuel + 1) other merge isAnswer tree place) := by
  cases fuel with
  | zero => exact .inl rfl
  | succ fuel =>
    refine (plain_succ fuel other place).bind fun answer => ?_
    match answer with
    | some (next, after) => exact plainFold_succ fuel other merge true (merge tree next) after
    | none => exact below_refl _

theorem plainItems_succ (fuel : Nat) (element : Grammar ρ) (separator : Option String)
    (earlier : List Tree) (place : Nat) :
    Below (plainItems rules tokens fuel element separator earlier place)
      (plainItems rules tokens (fuel + 1) element separator earlier place) := by
  cases fuel with
  | zero => exact .inl rfl
  | succ fuel =>
    refine (plain_succ fuel element place).bind fun answer => ?_
    match answer, separator with
    | none, _ => exact below_refl _
    | some (tree, next), none => exact plainItems_succ fuel element none (tree :: earlier) next
    | some (tree, next), some text =>
      refine .ite ?_ (below_refl _)
      exact plainItems_succ fuel element (some text) (tree :: earlier) (next + 1)

end

theorem plain_le {fuel fuel' : Nat} (h : fuel ≤ fuel') (g : Grammar ρ) (place : Nat) :
    Below (plain rules tokens fuel g place) (plain rules tokens fuel' g place) := by
  induction h with
  | refl => exact below_refl _
  | step _ ih => exact ih.trans (plain_succ _ g place)

/-- A parse that ends gives one answer, however much fuel it has. -/
theorem plain_unique {fuel fuel' : Nat} {g : Grammar ρ} {place : Nat} {answer : Match}
    (h : plain rules tokens fuel g place = .ok answer)
    (h' : plain rules tokens fuel' g place ≠ .error .exhausted) :
    plain rules tokens fuel' g place = .ok answer := by
  have hbelow : ∀ {n n' : Nat}, n ≤ n' →
      Below (plain rules tokens n g place) (plain rules tokens n' g place) :=
    fun hle => plain_le hle g place
  rcases Nat.le_total fuel fuel' with hle | hle
  · rcases hbelow hle with hsame | hsame
    · rw [h] at hsame
      cases hsame
    · exact hsame.symm.trans h
  · rcases hbelow hle with hsame | hsame
    · exact absurd hsame h'
    · exact hsame.trans h

end

end MiniC.Grammar
