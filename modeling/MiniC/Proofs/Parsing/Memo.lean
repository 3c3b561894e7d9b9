import MiniC.Language.Parse
import MiniC.Proofs.Parsing.Plain

set_option autoImplicit false

/-! # Parsing with a memo

A memo that holds only what rules match without it changes no answer: a parse that begins with such
a memo follows the one without a memo, as long as that one ends within its fuel. -/

namespace MiniC.Grammar

variable {ρ : Type} [BEq ρ] [Hashable ρ]

section

variable (rules : ρ → Except ParseFailure (Grammar ρ)) (tokens : Array Token)

/-- Whether a memo holds only what the rules match without it. -/
def Faithful (memo : Memo ρ) : Prop :=
  ∀ name place answer, memo.known[(name, place)]? = some answer →
    ∃ fuel, plain rules tokens fuel (.rule name) place = .ok answer

/-- The outcome of a parse that leaves a memo behind. -/
def outcome {α : Type} (x : Except ParseFailure α) (memo : Memo ρ) :
    EStateM.Result ParseFailure (Memo ρ) α :=
  match x with
  | .ok a => .ok a memo
  | .error e => .error e memo

/-- Whether a parse with a memo has the outcome `x` if the memo is faithful, and leaves a faithful
memo behind; nothing is said where `x` is that the fuel is exhausted. -/
def Follows {α : Type} (y : ParseM ρ α) (x : Except ParseFailure α) : Prop :=
  x ≠ .error .exhausted → ∀ memo, Faithful rules tokens memo →
    ∃ memo', Faithful rules tokens memo' ∧ y memo = outcome x memo'

end

variable {rules : ρ → Except ParseFailure (Grammar ρ)} {tokens : Array Token} {α β : Type}

theorem follows_pure (a : α) : Follows rules tokens (pure a) (pure a) :=
  fun _ memo hmemo => ⟨memo, hmemo, rfl⟩

theorem follows_throw (e : ParseFailure) :
    Follows rules tokens (throw e : ParseM ρ α) (throw e) :=
  fun _ memo hmemo => ⟨memo, hmemo, rfl⟩

theorem follows_lift (x : Except ParseFailure α) : Follows rules tokens (lift x) x := by
  cases x with
  | ok a => exact follows_pure a
  | error e => exact follows_throw e

theorem Follows.bind {x : Except ParseFailure α} {y : ParseM ρ α}
    {f : α → Except ParseFailure β} {g : α → ParseM ρ β} (hy : Follows rules tokens y x)
    (hg : ∀ a, Follows rules tokens (g a) (f a)) :
    Follows rules tokens (y >>= g) (x >>= f) := by
  intro hends memo hmemo
  have hx : x ≠ .error .exhausted := by
    rintro rfl
    exact hends rfl
  obtain ⟨memo', hmemo', hexec⟩ := hy hx memo hmemo
  have hbind : (y >>= g) memo = EStateM.bind y g memo := rfl
  rw [hbind, EStateM.bind, hexec]
  cases x with
  | ok a => exact hg a hends memo' hmemo'
  | error e => exact ⟨memo', hmemo', rfl⟩

theorem Follows.ite {c : Prop} [Decidable c] {x x' : Except ParseFailure α} {y y' : ParseM ρ α}
    (hy : Follows rules tokens y x) (hy' : Follows rules tokens y' x') :
    Follows rules tokens (if c then y else y') (if c then x else x') := by
  split
  · exact hy
  · exact hy'

/-- What a rule matches is written down in the memo, or was written down before. -/
theorem follows_rule [LawfulBEq ρ] [LawfulHashable ρ] (fuel : Nat) (name : ρ) (place : Nat)
    (h : ∀ body, Follows rules tokens (parse rules tokens fuel body place)
      (plain rules tokens fuel body place)) :
    Follows rules tokens (parse rules tokens (fuel + 1) (.rule name) place)
      (plain rules tokens (fuel + 1) (.rule name) place) := by
  intro hends memo hmemo
  rw [parse]
  change ∃ memo', Faithful rules tokens memo' ∧ EStateM.bind get _ memo = _
  dsimp only [EStateM.bind, get, getThe, MonadStateOf.get, EStateM.get]
  cases hknown : memo.known[(name, place)]? with
  | some answer =>
    -- the answer was found with other fuel, but there is only one
    obtain ⟨fuel', hfuel'⟩ := hmemo name place answer hknown
    exact ⟨memo, hmemo, by rw [plain_unique hfuel' hends]; rfl⟩
  | none =>
    -- the rule is tried, and its answer is added to the memo that the parse leaves behind
    obtain ⟨memo', hmemo', hexec⟩ := (follows_lift (rules name)).bind h hends memo hmemo
    dsimp only
    rw [← bind_assoc]
    change ∃ memo', Faithful rules tokens memo' ∧ EStateM.bind _ _ memo = _
    rw [EStateM.bind, hexec]
    have hplain : plain rules tokens (fuel + 1) (.rule name) place =
        rules name >>= fun body => plain rules tokens fuel body place := rfl
    rw [← hplain]
    cases hanswer : plain rules tokens (fuel + 1) (.rule name) place with
    | error e => exact ⟨memo', hmemo', rfl⟩
    | ok answer =>
      refine ⟨⟨memo'.known.insert (name, place) answer⟩, fun name' place' answer' h' => ?_, rfl⟩
      rw [Std.HashMap.getElem?_insert] at h'
      split at h'
      · rename_i hsame
        cases eq_of_beq hsame
        cases h'
        exact ⟨fuel + 1, hanswer⟩
      · exact hmemo' name' place' answer' h'

mutual

theorem follows_parse [LawfulBEq ρ] [LawfulHashable ρ] (fuel : Nat) (g : Grammar ρ) (place : Nat) :
    Follows rules tokens (parse rules tokens fuel g place) (plain rules tokens fuel g place) := by
  cases fuel with
  | zero => exact fun hends => absurd rfl hends
  | succ fuel =>
    cases g with
    | token accepts =>
      rw [parse, plain]
      cases tokens[place]? with
      | none => exact follows_pure _
      | some t => exact .ite (follows_pure _) (follows_pure _)
    | empty =>
      rw [parse]
      exact follows_pure _
    | rule name => exact follows_rule fuel name place fun body => follows_parse fuel body place
    | choice first second =>
      rw [parse]
      refine (follows_parse fuel first place).bind fun answer => ?_
      cases answer with
      | some answer => exact follows_pure _
      | none => exact follows_parse fuel second place
    | sequence steps merge =>
      rw [parse]
      refine (follows_parseSteps fuel steps [] place).bind fun answer => ?_
      match answer with
      | none => exact follows_pure _
      | some (trees, next) =>
        dsimp only
        cases merge trees with
        | ok tree => exact follows_pure _
        | error e => exact follows_throw _
    | fold first other merge canBeAlone =>
      rw [parse]
      refine (follows_parse fuel first place).bind fun answer => ?_
      match answer with
      | none => exact follows_pure _
      | some (tree, next) => exact follows_parseFold fuel other merge canBeAlone tree next
    | block opening closing inner label =>
      rw [parse]
      refine .ite ((follows_parse fuel inner (place + 1)).bind fun answer => ?_) (follows_pure _)
      match answer with
      | none => exact follows_pure _
      | some (tree, next) => exact .ite (follows_pure _) (follows_pure _)
    | items element label separator canBeEmpty =>
      rw [parse]
      refine (follows_parseItems fuel element separator [] place).bind fun answer => ?_
      match answer with
      | none => exact follows_pure _
      | some (trees, next) => exact .ite (follows_pure _) (follows_pure _)
    | prefixed operator operand label =>
      rw [parse]
      refine .ite ((follows_parse fuel operand (place + 1)).bind fun answer => ?_) (follows_pure _)
      match answer with
      | none => exact follows_pure _
      | some (tree, next) => exact follows_pure _
    | suffixed operand operator label =>
      rw [parse]
      refine (follows_parse fuel operand place).bind fun answer => ?_
      match answer with
      | none => exact follows_pure _
      | some (tree, next) => exact .ite (follows_pure _) (follows_pure _)
    | ahead inner text merge =>
      rw [parse]
      refine (follows_parse fuel inner place).bind fun answer => ?_
      match answer with
      | none => exact follows_pure _
      | some (tree, next) => exact .ite (follows_pure _) (follows_pure _)

theorem follows_parseSteps [LawfulBEq ρ] [LawfulHashable ρ] (fuel : Nat)
    (steps : List (Step (Grammar ρ))) (earlier : List Tree) (place : Nat) :
    Follows rules tokens (parseSteps rules tokens fuel steps earlier place)
      (plainSteps rules tokens fuel steps earlier place) := by
  cases fuel with
  | zero => exact fun hends => absurd rfl hends
  | succ fuel =>
    cases steps with
    | nil =>
      rw [parseSteps]
      exact follows_pure _
    | cons step rest =>
      rw [parseSteps]
      refine (follows_parse fuel step.grammar place).bind fun answer => ?_
      match answer with
      | some (tree, next) => exact follows_parseSteps fuel rest (tree :: earlier) next
      | none =>
        dsimp only
        cases step.message with
        | none => exact follows_pure _
        | some message => exact follows_throw _

theorem follows_parseFold [LawfulBEq ρ] [LawfulHashable ρ] (fuel : Nat) (other : Grammar ρ)
    (merge : Tree → Tree → Tree) (isAnswer : Bool) (tree : Tree) (place : Nat) :
    Follows rules tokens (parseFold rules tokens fuel other merge isAnswer tree place)
      (plainFold rules tokens fuel other merge isAnswer tree place) := by
  cases fuel with
  | zero => exact fun hends => absurd rfl hends
  | succ fuel =>
    rw [parseFold]
    refine (follows_parse fuel other place).bind fun answer => ?_
    match answer with
    | some (next, after) => exact follows_parseFold fuel other merge true (merge tree next) after
    | none => exact .ite (follows_pure _) (follows_pure _)

theorem follows_parseItems [LawfulBEq ρ] [LawfulHashable ρ] (fuel : Nat) (element : Grammar ρ)
    (separator : Option String) (earlier : List Tree) (place : Nat) :
    Follows rules tokens (parseItems rules tokens fuel element separator earlier place)
      (plainItems rules tokens fuel element separator earlier place) := by
  cases fuel with
  | zero => exact fun hends => absurd rfl hends
  | succ fuel =>
    rw [parseItems]
    refine (follows_parse fuel element place).bind fun answer => ?_
    match answer, separator with
    | none, _ => exact .ite (follows_pure _) (follows_pure _)
    | some (tree, next), none => exact follows_parseItems fuel element none (tree :: earlier) next
    | some (tree, next), some text =>
      refine .ite ?_ (follows_pure _)
      exact follows_parseItems fuel element (some text) (tree :: earlier) (next + 1)

end

theorem faithful_empty : Faithful rules tokens (⟨∅⟩ : Memo ρ) := by
  intro name place answer hknown
  rw [Std.HashMap.getElem?_empty] at hknown
  cases hknown

/-- With the fuel that is enough without a memo, a parse that begins with an empty memo has the same
outcome and leaves a faithful memo behind. -/
theorem run_of_plain [LawfulBEq ρ] [LawfulHashable ρ] {fuel : Nat} {g : Grammar ρ} {place : Nat}
    {x : Except ParseFailure Match} (h : plain rules tokens fuel g place = x)
    (hends : x ≠ .error .exhausted) :
    ∃ memo, Faithful rules tokens memo ∧ run (parse rules tokens fuel g place) = (x, memo) := by
  subst h
  obtain ⟨memo, hmemo, hexec⟩ := follows_parse fuel g place hends _ faithful_empty
  refine ⟨memo, hmemo, ?_⟩
  rw [run, hexec]
  cases plain rules tokens fuel g place <;> rfl

/-- A parse with an empty memo has the answer of the parse without a memo. -/
theorem run_parse_of_plain [LawfulBEq ρ] [LawfulHashable ρ] {fuel : Nat} {g : Grammar ρ}
    {place : Nat} {x : Except ParseFailure Match} (h : plain rules tokens fuel g place = x)
    (hends : x ≠ .error .exhausted) : (run (parse rules tokens fuel g place)).1 = x := by
  obtain ⟨memo, -, hrun⟩ := run_of_plain h hends
  rw [hrun]

end MiniC.Grammar

namespace MiniC

/-- The tree of tokens that form a program without the help of a memo. -/
theorem parseTree_of_plain {tokens : List Token} {tree : Tree}
    (h : Grammar.plain (fun name => .ok (Rule.grammar name)) tokens.toArray
      (parseFuel tokens.length) (.rule .program) 0 = .ok (some (tree, tokens.length))) :
    parseTree tokens = .ok tree.numbered := by
  have hmatch : matchProgram tokens.toArray = .ok (some (tree, tokens.length)) :=
    Grammar.run_parse_of_plain h nofun
  simp only [parseTree, hmatch, List.size_toArray, if_true]

end MiniC
