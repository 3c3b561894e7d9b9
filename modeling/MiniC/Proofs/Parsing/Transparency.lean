import MiniC.Proofs.Parsing.Memo

set_option autoImplicit false

/-! # What a memo changes

A memo saves steps and nothing else. How a grammar ends at a place is a matter of the grammar and
the tokens alone: `EndsWith` says it without a memo and without naming the fuel. The main statement
is that a parse with a memo ends in the same way, whether it answers or fails, and that everything
it has written down by then is how the rules end without a memo. -/

namespace MiniC.Grammar

variable {ρ : Type}

section

variable (rules : ρ → Except ParseFailure (Grammar ρ)) (tokens : Array Token)

/-- Whether the parse of a grammar at a place ends with the outcome `x` if every rule is tried again
wherever it is named, with enough fuel. -/
def EndsWith (g : Grammar ρ) (place : Nat) (x : Except ParseFailure Match) : Prop :=
  x ≠ .error .exhausted ∧ ∃ fuel, plain rules tokens fuel g place = x

end

variable {rules : ρ → Except ParseFailure (Grammar ρ)} {tokens : Array Token} {α β : Type}

theorem EndsWith.plain_eq {g : Grammar ρ} {place fuel fuel' : Nat} {x : Except ParseFailure Match}
    (hends : x ≠ .error .exhausted) (h : plain rules tokens fuel g place = x) (hle : fuel ≤ fuel') :
    plain rules tokens fuel' g place = x := by
  have hbelow : Below (plain rules tokens fuel g place) (plain rules tokens fuel' g place) :=
    plain_le hle g place
  rcases hbelow with hsame | hsame
  · exact absurd (h.symm.trans hsame) hends
  · exact hsame.symm.trans h

/-! ## More fuel for a parse with a memo -/

variable [BEq ρ] [Hashable ρ]

/-- Whether a parse with a memo ends as another one does and leaves the same memo behind, unless it
takes more steps than it is allowed. -/
def Sooner (y z : ParseM ρ α) : Prop :=
  ∀ memo, (∃ memo', y memo = .error .exhausted memo') ∨ y memo = z memo

theorem sooner_refl (y : ParseM ρ α) : Sooner y y :=
  fun _ => .inr rfl

theorem sooner_exhausted (z : ParseM ρ α) : Sooner (throw .exhausted) z :=
  fun memo => .inl ⟨memo, rfl⟩

theorem Sooner.trans {x y z : ParseM ρ α} (hxy : Sooner x y) (hyz : Sooner y z) : Sooner x z := by
  intro memo
  rcases hxy memo with hexhausted | hsame
  · exact .inl hexhausted
  · rw [hsame]
    exact hyz memo

theorem Sooner.bind {y z : ParseM ρ α} {f g : α → ParseM ρ β} (hyz : Sooner y z)
    (hfg : ∀ a, Sooner (f a) (g a)) : Sooner (y >>= f) (z >>= g) := by
  intro memo
  change (∃ memo', EStateM.bind y f memo = _) ∨ EStateM.bind y f memo = EStateM.bind z g memo
  simp only [EStateM.bind]
  rcases hyz memo with ⟨memo', hexhausted⟩ | hsame
  · rw [hexhausted]
    exact .inl ⟨memo', rfl⟩
  · rw [← hsame]
    cases y memo with
    | ok a memo' => exact hfg a memo'
    | error e memo' => exact .inr rfl

theorem Sooner.ite {c : Prop} [Decidable c] {y z y' z' : ParseM ρ α} (h : Sooner y z)
    (h' : Sooner y' z') : Sooner (if c then y else y') (if c then z else z') := by
  split
  · exact h
  · exact h'

mutual

theorem parse_succ (fuel : Nat) (g : Grammar ρ) (place : Nat) :
    Sooner (parse rules tokens fuel g place) (parse rules tokens (fuel + 1) g place) := by
  cases fuel with
  | zero => rw [parse]; exact sooner_exhausted _
  | succ fuel =>
    cases g with
    | token accepts => rw [parse, parse]; exact sooner_refl _
    | empty => rw [parse, parse]; exact sooner_refl _
    | rule name =>
      rw [parse, parse]
      refine (sooner_refl _).bind fun memo => ?_
      -- What is remembered is found at once, with any fuel.
      cases memo.known[(name, place)]? with
      | some answer => exact sooner_refl _
      | none =>
        refine (sooner_refl _).bind fun body => ?_
        exact (parse_succ fuel body place).bind fun _ => sooner_refl _
    | choice first second =>
      rw [parse, parse]
      refine (parse_succ fuel first place).bind fun answer => ?_
      cases answer with
      | some answer => exact sooner_refl _
      | none => exact parse_succ fuel second place
    | sequence steps merge =>
      rw [parse, parse]
      exact (parseSteps_succ fuel steps [] place).bind fun _ => sooner_refl _
    | fold first other merge canBeAlone =>
      rw [parse, parse]
      refine (parse_succ fuel first place).bind fun answer => ?_
      match answer with
      | none => exact sooner_refl _
      | some (tree, next) => exact parseFold_succ fuel other merge canBeAlone tree next
    | block opening closing inner label =>
      rw [parse, parse]
      refine .ite ?_ (sooner_refl _)
      exact (parse_succ fuel inner (place + 1)).bind fun _ => sooner_refl _
    | items element label separator canBeEmpty =>
      rw [parse, parse]
      exact (parseItems_succ fuel element separator [] place).bind fun _ => sooner_refl _
    | prefixed operator operand label =>
      rw [parse, parse]
      refine .ite ?_ (sooner_refl _)
      exact (parse_succ fuel operand (place + 1)).bind fun _ => sooner_refl _
    | suffixed operand operator label =>
      rw [parse, parse]
      exact (parse_succ fuel operand place).bind fun _ => sooner_refl _
    | ahead inner text merge =>
      rw [parse, parse]
      exact (parse_succ fuel inner place).bind fun _ => sooner_refl _

theorem parseSteps_succ (fuel : Nat) (steps : List (Step (Grammar ρ))) (earlier : List Tree)
    (place : Nat) : Sooner (parseSteps rules tokens fuel steps earlier place)
      (parseSteps rules tokens (fuel + 1) steps earlier place) := by
  cases fuel with
  | zero => rw [parseSteps]; exact sooner_exhausted _
  | succ fuel =>
    cases steps with
    | nil => rw [parseSteps, parseSteps]; exact sooner_refl _
    | cons step rest =>
      rw [parseSteps, parseSteps]
      refine (parse_succ fuel step.grammar place).bind fun answer => ?_
      match answer with
      | some (tree, next) => exact parseSteps_succ fuel rest (tree :: earlier) next
      | none => exact sooner_refl _

theorem parseFold_succ (fuel : Nat) (other : Grammar ρ) (merge : Tree → Tree → Tree)
    (isAnswer : Bool) (tree : Tree) (place : Nat) :
    Sooner (parseFold rules tokens fuel other merge isAnswer tree place)
      (parseFold rules tokens (fuel + 1) other merge isAnswer tree place) := by
  cases fuel with
  | zero => rw [parseFold]; exact sooner_exhausted _
  | succ fuel =>
    rw [parseFold, parseFold]
    refine (parse_succ fuel other place).bind fun answer => ?_
    match answer with
    | some (next, after) => exact parseFold_succ fuel other merge true (merge tree next) after
    | none => exact sooner_refl _

theorem parseItems_succ (fuel : Nat) (element : Grammar ρ) (separator : Option String)
    (earlier : List Tree) (place : Nat) :
    Sooner (parseItems rules tokens fuel element separator earlier place)
      (parseItems rules tokens (fuel + 1) element separator earlier place) := by
  cases fuel with
  | zero => rw [parseItems]; exact sooner_exhausted _
  | succ fuel =>
    rw [parseItems, parseItems]
    refine (parse_succ fuel element place).bind fun answer => ?_
    match answer, separator with
    | none, _ => exact sooner_refl _
    | some (tree, next), none => exact parseItems_succ fuel element none (tree :: earlier) next
    | some (tree, next), some text =>
      refine .ite ?_ (sooner_refl _)
      exact parseItems_succ fuel element (some text) (tree :: earlier) (next + 1)

end

theorem parse_le {fuel fuel' : Nat} (h : fuel ≤ fuel') (g : Grammar ρ) (place : Nat) :
    Sooner (parse rules tokens fuel g place) (parse rules tokens fuel' g place) := by
  induction h with
  | refl => exact sooner_refl _
  | step _ ih => exact ih.trans (parse_succ _ g place)

/-! ## The same outcome -/

theorem run_eq_of_sooner {y z : ParseM ρ α} (h : Sooner y z)
    (hends : (run y).1 ≠ .error .exhausted) : run y = run z := by
  rcases h ⟨∅⟩ with ⟨memo, hexhausted⟩ | hsame
  · rw [run, hexhausted] at hends
    exact absurd rfl hends
  · rw [run, run, hsame]

/-- Where the parse without a memo ends, the parse with an empty memo ends too. It has the same
outcome, be it a match, no match or a failure, with all the fuel that it ends with; and whatever the
memo holds in the end, also after a failure, is how the rules end without a memo. -/
theorem run_transparent [LawfulBEq ρ] [LawfulHashable ρ] {g : Grammar ρ} {place : Nat}
    {x : Except ParseFailure Match} (h : EndsWith rules tokens g place x) :
    (∃ fuel, (run (parse rules tokens fuel g place)).1 ≠ .error .exhausted) ∧
      ∀ fuel, (run (parse rules tokens fuel g place)).1 ≠ .error .exhausted →
        ∃ memo, run (parse rules tokens fuel g place) = (x, memo) ∧
          ∀ name place' answer, memo.known[(name, place')]? = some answer →
            EndsWith rules tokens (.rule name) place' (.ok answer) := by
  obtain ⟨hends, enough, hplain⟩ := h
  constructor
  · obtain ⟨memo, -, hrun⟩ := run_of_plain hplain hends
    exact ⟨enough, by rw [hrun]; exact hends⟩
  · intro fuel hfuel
    -- with more fuel than both parses need, the one with a memo still does the same
    have hmore := EndsWith.plain_eq hends hplain (Nat.le_max_left enough fuel)
    obtain ⟨memo, hmemo, hrun⟩ := run_of_plain hmore hends
    have hsame := run_eq_of_sooner (parse_le (Nat.le_max_right enough fuel) g place) hfuel
    refine ⟨memo, hsame.trans hrun, fun name place' answer hknown => ?_⟩
    exact ⟨nofun, hmemo name place' answer hknown⟩

/-- The tokens of `if(a`. -/
def unfinished : Array Token :=
  #[⟨⟨.keyword, "if", ⟨1, 1⟩, []⟩, 1⟩, ⟨⟨.punctuator, "(", ⟨1, 3⟩, []⟩, 2⟩,
    ⟨⟨.identifier, "a", ⟨1, 4⟩, []⟩, 3⟩]

/-- A parse that fails in the middle of a rule, after it has tried the levels of expressions at one
place again and again. -/
theorem run_transparent_unfinished :
    let rules := fun name => .ok (Rule.grammar name)
    let failure : Except ParseFailure Match :=
      .error (.error ⟨.committed "Invalid if declaration: ')' is missed." 3, some ⟨1, 4⟩⟩)
    EndsWith rules unfinished (.rule .statement) 0 failure ∧
      ∀ fuel, (run (parse rules unfinished fuel (.rule .statement) 0)).1 ≠ .error .exhausted →
        ∃ memo, run (parse rules unfinished fuel (.rule .statement) 0) = (failure, memo) ∧
          ∀ name place' answer, memo.known[(name, place')]? = some answer →
            EndsWith rules unfinished (.rule name) place' (.ok answer) := by
  intro rules failure
  have hends : EndsWith rules unfinished (.rule .statement) 0 failure :=
    ⟨by simp [failure], 60, by rfl⟩
  exact ⟨hends, (run_transparent hends).2⟩

end MiniC.Grammar
