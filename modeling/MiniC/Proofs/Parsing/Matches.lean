import MiniC.Proofs.Lexing.Numbers
import MiniC.Proofs.Parsing.Plain

set_option autoImplicit false

/-! # What a match is made of

How the tree that a grammar matches is put together from what its parts match. `MatchesBy` says it
once for every form of a grammar, without fuel and without the tokens that were tried in vain, for
any relation between the parts, their places and their trees. A match that a parse finds within
some fuel is made of matches that it finds with less, so that a property of all matches follows from
one step, by induction on the fuel. -/

namespace MiniC.Grammar

variable {ρ : Type}

section

variable (rules : ρ → Except ParseFailure (Grammar ρ)) (tokens : Array Token)
  (M : Grammar ρ → Nat → Tree → Nat → Prop)

/-- Whether steps match one after the other from a place on, up to the place `next`. -/
inductive MatchesSteps : List (Step (Grammar ρ)) → Nat → List Tree → Nat → Prop
  | nil (place : Nat) : MatchesSteps [] place [] place
  | cons {step : Step (Grammar ρ)} {rest : List (Step (Grammar ρ))} {place mid next : Nat}
    {tree : Tree} {trees : List Tree} (hstep : M step.grammar place tree mid)
    (hrest : MatchesSteps rest mid trees next) :
    MatchesSteps (step :: rest) place (tree :: trees) next

/-- Whether a fold goes on from the tree that it has at a place to the tree `result`, which it has
at the place `next`. -/
inductive MatchesFold (other : Grammar ρ) (merge : Tree → Tree → Tree) :
    Tree → Nat → Tree → Nat → Prop
  | done (tree : Tree) (place : Nat) : MatchesFold other merge tree place tree place
  | more {tree piece result : Tree} {place mid next : Nat} (hpiece : M other place piece mid)
    (hrest : MatchesFold other merge (merge tree piece) mid result next) :
    MatchesFold other merge tree place result next

/-- Whether the separator of a list, if it has one, stands between two places. -/
def Separates (separator : Option String) (place next : Nat) : Prop :=
  match separator with
  | none => next = place
  | some text => hasText tokens place text = true ∧ next = place + 1

/-- Whether the elements of a list match from a place on, up to the place `next`. -/
inductive MatchesItems (element : Grammar ρ) (separator : Option String) :
    Nat → List Tree → Nat → Prop
  | nil (place : Nat) : MatchesItems element separator place [] place
  | last {tree : Tree} {place next : Nat} (helement : M element place tree next) :
    MatchesItems element separator place [tree] next
  | more {tree : Tree} {trees : List Tree} {place mid mid' next : Nat}
    (helement : M element place tree mid) (hseparator : Separates tokens separator mid mid')
    (hrest : MatchesItems element separator mid' trees next) :
    MatchesItems element separator place (tree :: trees) next

/-- Whether a grammar matches a tree from a place on, up to the place `next`, where its parts match
what `M` says. -/
inductive MatchesBy : Grammar ρ → Nat → Tree → Nat → Prop
  | token {accepts : Token → Bool} {place : Nat} {t : Token} (htoken : tokens[place]? = some t)
    (haccepts : accepts t = true) : MatchesBy (.token accepts) place (.leaf t 0) (place + 1)
  | empty (place : Nat) : MatchesBy .empty place .empty place
  | rule {name : ρ} {body : Grammar ρ} {place next : Nat} {tree : Tree}
    (hbody : rules name = .ok body) (htree : M body place tree next) :
    MatchesBy (.rule name) place tree next
  | first {first second : Grammar ρ} {place next : Nat} {tree : Tree}
    (htree : M first place tree next) : MatchesBy (.choice first second) place tree next
  | second {first second : Grammar ρ} {place next : Nat} {tree : Tree}
    (htree : M second place tree next) : MatchesBy (.choice first second) place tree next
  | sequence {steps : List (Step (Grammar ρ))} {merge : List Tree → Except SyntaxError Tree}
    {place next : Nat} {trees : List Tree} {tree : Tree}
    (hsteps : MatchesSteps M steps place trees next) (hmerge : merge trees = .ok tree) :
    MatchesBy (.sequence steps merge) place tree next
  | alone {first other : Grammar ρ} {merge : Tree → Tree → Tree} {place next : Nat} {tree : Tree}
    (hfirst : M first place tree next) : MatchesBy (.fold first other merge true) place tree next
  | fold {first other : Grammar ρ} {merge : Tree → Tree → Tree} {canBeAlone : Bool}
    {place mid mid' next : Nat} {tree piece result : Tree} (hfirst : M first place tree mid)
    (hpiece : M other mid piece mid')
    (hrest : MatchesFold M other merge (merge tree piece) mid' result next) :
    MatchesBy (.fold first other merge canBeAlone) place result next
  | block {opening closing : String} {inner : Grammar ρ} {label : Label} {place next : Nat}
    {tree : Tree} (hopening : hasText tokens place opening = true)
    (hinner : M inner (place + 1) tree next) (hclosing : hasText tokens next closing = true) :
    MatchesBy (.block opening closing inner label) place (.node label [tree]) (next + 1)
  | items {element : Grammar ρ} {label : Label} {separator : Option String} {canBeEmpty : Bool}
    {place next : Nat} {trees : List Tree}
    (hitems : MatchesItems tokens M element separator place trees next)
    (hempty : trees = [] → canBeEmpty = true) :
    MatchesBy (.items element label separator canBeEmpty) place (.node label trees) next
  | prefixed {operator : String} {operand : Grammar ρ} {label : Label} {place next : Nat}
    {tree : Tree} (hoperator : hasOperator tokens place operator = true)
    (hoperand : M operand (place + 1) tree next) :
    MatchesBy (.prefixed operator operand label) place (.node label [tree]) next
  | suffixed {operand : Grammar ρ} {operator : String} {label : Label} {place next : Nat}
    {tree : Tree} (hoperand : M operand place tree next)
    (hoperator : hasOperator tokens next operator = true) :
    MatchesBy (.suffixed operand operator label) place (.node label [tree]) (next + 1)
  | ahead {inner : Grammar ρ} {text : String} {merge : Tree → Tree} {place next : Nat}
    {tree : Tree} (hinner : M inner place tree next) (htext : hasText tokens next text = true) :
    MatchesBy (.ahead inner text merge) place (merge tree) next

/-- Whether a parse without a memo finds a match with less than `fuel`. -/
def Within (fuel : Nat) (g : Grammar ρ) (place : Nat) (tree : Tree) (next : Nat) : Prop :=
  ∃ less < fuel, plain rules tokens less g place = .ok (some (tree, next))

end

variable {rules : ρ → Except ParseFailure (Grammar ρ)} {tokens : Array Token}

/-! ## More matches of the parts -/

section

variable {M M' : Grammar ρ → Nat → Tree → Nat → Prop}

theorem MatchesSteps.imp {steps : List (Step (Grammar ρ))} {place next : Nat} {trees : List Tree}
    (h : MatchesSteps M steps place trees next)
    (himp : ∀ g place tree next, M g place tree next → M' g place tree next) :
    MatchesSteps M' steps place trees next := by
  induction h with
  | nil place => exact .nil place
  | cons hstep _ ih => exact .cons (himp _ _ _ _ hstep) ih

theorem MatchesFold.imp {other : Grammar ρ} {merge : Tree → Tree → Tree} {tree result : Tree}
    {place next : Nat} (h : MatchesFold M other merge tree place result next)
    (himp : ∀ g place tree next, M g place tree next → M' g place tree next) :
    MatchesFold M' other merge tree place result next := by
  induction h with
  | done tree place => exact .done tree place
  | more hpiece _ ih => exact .more (himp _ _ _ _ hpiece) ih

theorem MatchesItems.imp {element : Grammar ρ} {separator : Option String} {place next : Nat}
    {trees : List Tree} (h : MatchesItems tokens M element separator place trees next)
    (himp : ∀ g place tree next, M g place tree next → M' g place tree next) :
    MatchesItems tokens M' element separator place trees next := by
  induction h with
  | nil place => exact .nil place
  | last helement => exact .last (himp _ _ _ _ helement)
  | more helement hseparator _ ih => exact .more (himp _ _ _ _ helement) hseparator ih

theorem MatchesBy.imp {g : Grammar ρ} {place next : Nat} {tree : Tree}
    (h : MatchesBy rules tokens M g place tree next)
    (himp : ∀ g place tree next, M g place tree next → M' g place tree next) :
    MatchesBy rules tokens M' g place tree next := by
  cases h with
  | token htoken haccepts => exact .token htoken haccepts
  | empty => exact .empty _
  | rule hbody htree => exact .rule hbody (himp _ _ _ _ htree)
  | first htree => exact .first (himp _ _ _ _ htree)
  | second htree => exact .second (himp _ _ _ _ htree)
  | sequence hsteps hmerge => exact .sequence (hsteps.imp himp) hmerge
  | alone hfirst => exact .alone (himp _ _ _ _ hfirst)
  | fold hfirst hpiece hrest =>
    exact .fold (himp _ _ _ _ hfirst) (himp _ _ _ _ hpiece) (hrest.imp himp)
  | block hopening hinner hclosing => exact .block hopening (himp _ _ _ _ hinner) hclosing
  | items hitems hempty => exact .items (hitems.imp himp) hempty
  | prefixed hoperator hoperand => exact .prefixed hoperator (himp _ _ _ _ hoperand)
  | suffixed hoperand hoperator => exact .suffixed (himp _ _ _ _ hoperand) hoperator
  | ahead hinner htext => exact .ahead (himp _ _ _ _ hinner) htext

end

theorem Within.of_plain {fuel place next : Nat} {g : Grammar ρ} {tree : Tree}
    (h : plain rules tokens fuel g place = .ok (some (tree, next))) :
    Within rules tokens (fuel + 1) g place tree next :=
  ⟨fuel, Nat.lt_succ_self fuel, h⟩

theorem Within.mono {fuel fuel' : Nat} (hle : fuel ≤ fuel') (g : Grammar ρ) (place : Nat)
    (tree : Tree) (next : Nat) (h : Within rules tokens fuel g place tree next) :
    Within rules tokens fuel' g place tree next := by
  obtain ⟨less, hless, hplain⟩ := h
  exact ⟨less, Nat.lt_of_lt_of_le hless hle, hplain⟩

/-! ## The text of a token -/

theorem exists_of_hasText {place : Nat} {text : String} (h : hasText tokens place text = true) :
    ∃ t, tokens[place]? = some t ∧ t.text = text := by
  unfold hasText at h
  cases htoken : tokens[place]? with
  | none => simp [htoken] at h
  | some t => exact ⟨t, rfl, by simpa [htoken] using h⟩

theorem exists_of_hasOperator {place : Nat} {text : String}
    (h : hasOperator tokens place text = true) :
    ∃ t, tokens[place]? = some t ∧ t.text = text ∧ t.isLiteral = false := by
  unfold hasOperator at h
  cases htoken : tokens[place]? with
  | none => simp [htoken] at h
  | some t => exact ⟨t, rfl, by simpa [htoken] using h⟩

/-! ## The matches of a parse -/

theorem matchesSteps_of_plainSteps {fuel place next : Nat} {steps : List (Step (Grammar ρ))}
    {earlier trees : List Tree}
    (h : plainSteps rules tokens fuel steps earlier place = .ok (some (trees, next))) :
    ∃ new, trees = earlier.reverse ++ new ∧
      MatchesSteps (Within rules tokens fuel) steps place new next := by
  induction fuel generalizing steps earlier place with
  | zero => cases h
  | succ fuel ih =>
    cases steps with
    | nil =>
      cases h
      exact ⟨[], (List.append_nil _).symm, .nil _⟩
    | cons step rest =>
      obtain ⟨answer, hstep, hrest⟩ := exists_of_bind_eq_ok h
      match answer with
      | some (tree, mid) =>
        obtain ⟨new, rfl, hnew⟩ := ih hrest
        refine ⟨tree :: new, by simp, .cons (.of_plain hstep) ?_⟩
        exact hnew.imp (Within.mono (Nat.le_succ fuel))
      | none =>
        dsimp only at hrest
        split at hrest <;> cases hrest

theorem matchesFold_of_plainFold {fuel place next : Nat} {other : Grammar ρ}
    {merge : Tree → Tree → Tree} {isAnswer : Bool} {tree result : Tree}
    (h : plainFold rules tokens fuel other merge isAnswer tree place = .ok (some (result, next))) :
    (isAnswer = true ∧ result = tree ∧ next = place) ∨
      ∃ piece mid, Within rules tokens fuel other place piece mid ∧
        MatchesFold (Within rules tokens fuel) other merge (merge tree piece) mid result next := by
  induction fuel generalizing isAnswer tree place with
  | zero => cases h
  | succ fuel ih =>
    obtain ⟨answer, hpiece, hrest⟩ := exists_of_bind_eq_ok h
    match answer with
    | some (piece, mid) =>
      refine .inr ⟨piece, mid, .of_plain hpiece, ?_⟩
      rcases ih hrest with ⟨-, rfl, rfl⟩ | ⟨piece', mid', hpiece', hfold⟩
      · exact .done _ _
      · have hmono := @Within.mono _ rules tokens _ _ (Nat.le_succ fuel)
        exact .more (hmono _ _ _ _ hpiece') (hfold.imp hmono)
    | none =>
      dsimp only at hrest
      split at hrest
      next hanswer =>
        cases hrest
        exact .inl ⟨hanswer, rfl, rfl⟩
      · cases hrest

theorem matchesItems_of_plainItems {fuel place next : Nat} {element : Grammar ρ}
    {separator : Option String} {earlier trees : List Tree}
    (h : plainItems rules tokens fuel element separator earlier place = .ok (some (trees, next))) :
    ∃ new, trees = earlier.reverse ++ new ∧
      MatchesItems tokens (Within rules tokens fuel) element separator place new next := by
  induction fuel generalizing earlier place with
  | zero => cases h
  | succ fuel ih =>
    have hmono := @Within.mono _ rules tokens _ _ (Nat.le_succ fuel)
    obtain ⟨answer, helement, hrest⟩ := exists_of_bind_eq_ok h
    match answer, separator with
    | none, _ =>
      dsimp only at hrest
      split at hrest <;> cases hrest
      exact ⟨[], (List.append_nil _).symm, .nil _⟩
    | some (tree, mid), none =>
      obtain ⟨new, rfl, hnew⟩ := ih hrest
      exact ⟨tree :: new, by simp, .more (.of_plain helement) rfl (hnew.imp hmono)⟩
    | some (tree, mid), some text =>
      dsimp only at hrest
      split at hrest
      next htext =>
        obtain ⟨new, rfl, hnew⟩ := ih hrest
        exact ⟨tree :: new, by simp, .more (.of_plain helement) ⟨htext, rfl⟩ (hnew.imp hmono)⟩
      · cases hrest
        exact ⟨[tree], by simp, .last (.of_plain helement)⟩

/-- A match of a parse is made of matches that are found with less fuel. -/
theorem matchesBy_of_plain {fuel place next : Nat} {g : Grammar ρ} {tree : Tree}
    (h : plain rules tokens fuel g place = .ok (some (tree, next))) :
    MatchesBy rules tokens (Within rules tokens fuel) g place tree next := by
  cases fuel with
  | zero => cases h
  | succ fuel =>
    have hmono := @Within.mono _ rules tokens _ _ (Nat.le_succ fuel)
    cases g with
    | token accepts =>
      rw [plain] at h
      split at h
      next t htoken =>
        split at h
        next haccepts =>
          cases h
          exact .token htoken haccepts
        · cases h
      · cases h
    | empty =>
      cases h
      exact .empty _
    | rule name =>
      obtain ⟨body, hbody, htree⟩ := exists_of_bind_eq_ok h
      exact .rule hbody (.of_plain htree)
    | choice first second =>
      obtain ⟨answer, hfirst, hrest⟩ := exists_of_bind_eq_ok h
      match answer with
      | some answer =>
        cases hrest
        exact .first (.of_plain hfirst)
      | none => exact .second (.of_plain hrest)
    | sequence steps merge =>
      obtain ⟨answer, hsteps, hrest⟩ := exists_of_bind_eq_ok h
      match answer with
      | none => cases hrest
      | some (trees, mid) =>
        obtain ⟨new, hnew, hmatches⟩ := matchesSteps_of_plainSteps hsteps
        dsimp only at hrest
        split at hrest
        next tree hmerge =>
          cases hrest
          rw [List.reverse_nil, List.nil_append] at hnew
          exact .sequence (hmatches.imp hmono) (hnew ▸ hmerge)
        · cases hrest
    | fold first other merge canBeAlone =>
      obtain ⟨answer, hfirst, hrest⟩ := exists_of_bind_eq_ok h
      match answer with
      | none => cases hrest
      | some (tree, mid) =>
        rcases matchesFold_of_plainFold hrest with ⟨rfl, rfl, rfl⟩ | ⟨piece, mid', hpiece, hfold⟩
        · exact .alone (.of_plain hfirst)
        · exact .fold (.of_plain hfirst) (hmono _ _ _ _ hpiece) (hfold.imp hmono)
    | block opening closing inner label =>
      rw [plain] at h
      split at h
      next hopening =>
        obtain ⟨answer, hinner, hrest⟩ := exists_of_bind_eq_ok h
        match answer with
        | none => cases hrest
        | some (tree, mid) =>
          dsimp only at hrest
          split at hrest
          next hclosing =>
            cases hrest
            exact .block hopening (.of_plain hinner) hclosing
          · cases hrest
      · cases h
    | items element label separator canBeEmpty =>
      obtain ⟨answer, hitems, hrest⟩ := exists_of_bind_eq_ok h
      match answer with
      | none => cases hrest
      | some (trees, mid) =>
        obtain ⟨new, hnew, hmatches⟩ := matchesItems_of_plainItems hitems
        rw [List.reverse_nil, List.nil_append] at hnew
        dsimp only at hrest
        split at hrest
        · cases hrest
        next hempty =>
          cases hrest
          subst hnew
          exact .items (hmatches.imp hmono) fun hnil => by simpa [hnil] using hempty
    | prefixed operator operand label =>
      rw [plain] at h
      split at h
      next hoperator =>
        obtain ⟨answer, hoperand, hrest⟩ := exists_of_bind_eq_ok h
        match answer with
        | none => cases hrest
        | some (tree, mid) =>
          cases hrest
          exact .prefixed hoperator (.of_plain hoperand)
      · cases h
    | suffixed operand operator label =>
      obtain ⟨answer, hoperand, hrest⟩ := exists_of_bind_eq_ok h
      match answer with
      | none => cases hrest
      | some (tree, mid) =>
        dsimp only at hrest
        split at hrest
        next hoperator =>
          cases hrest
          exact .suffixed (.of_plain hoperand) hoperator
        · cases hrest
    | ahead inner text merge =>
      obtain ⟨answer, hinner, hrest⟩ := exists_of_bind_eq_ok h
      match answer with
      | none => cases hrest
      | some (tree, mid) =>
        dsimp only at hrest
        split at hrest
        next htext =>
          cases hrest
          exact .ahead (.of_plain hinner) htext
        · cases hrest

/-- A property of all matches follows from one step: it holds of a match if it holds of the matches
that this one is made of. -/
theorem plain_induction {P : Grammar ρ → Nat → Tree → Nat → Prop}
    (hstep : ∀ {M : Grammar ρ → Nat → Tree → Nat → Prop},
      (∀ g place tree next, M g place tree next → P g place tree next) →
      ∀ g place tree next, MatchesBy rules tokens M g place tree next → P g place tree next)
    {fuel place next : Nat} {g : Grammar ρ} {tree : Tree}
    (h : plain rules tokens fuel g place = .ok (some (tree, next))) : P g place tree next := by
  induction fuel using Nat.strongRecOn generalizing g place tree next with
  | ind fuel ih =>
    refine hstep (M := Within rules tokens fuel) ?_ g place tree next (matchesBy_of_plain h)
    rintro g place tree next ⟨less, hless, hplain⟩
    exact ih less hless hplain

end MiniC.Grammar
