import Mathlib.Logic.Relation
import MiniC.Proofs.Parsing.Matches

set_option autoImplicit false

/-! # Progress of a parse

Why a parse ends. Two numbers are read off a grammar without any tokens: whether it may match
without taking a token, and how deep its calls can nest before one is taken. Both need to be known
for the rules that it names, so a table for the rules is given and then checked against their
grammars. Where the check succeeds, a call leads at one place only to calls of less depth, whatever
is repeated takes a token each time, and a parse ends within a fixed amount of fuel for every token
that is left. -/

namespace MiniC.Grammar

variable {ρ : Type}

/-! ## What is known of a grammar without tokens -/

section

variable (nullable : ρ → Bool) (height : ρ → Nat)

/-- Whether a grammar may match without taking a token, where the rules in `nullable` may. -/
def mayBeEmpty : Grammar ρ → Bool
  | .token _ => false
  | .empty => true
  | .rule name => nullable name
  | .choice first second => first.mayBeEmpty || second.mayBeEmpty
  | .sequence steps _ => allMayBeEmpty steps
  | .fold first _ _ _ => first.mayBeEmpty
  | .block _ _ _ _ => false
  | .items element _ _ canBeEmpty => canBeEmpty || element.mayBeEmpty
  | .prefixed _ _ _ => false
  | .suffixed _ _ _ => false
  | .ahead inner _ _ => inner.mayBeEmpty
where
  /-- Whether several steps may all match without taking a token. -/
  allMayBeEmpty : List (Step (Grammar ρ)) → Bool
    | [] => true
    | ⟨g, _⟩ :: rest => g.mayBeEmpty && allMayBeEmpty rest

/-- How deep the calls of a grammar nest at the place where it begins, where those of the rules nest
as deep as `height` says. What is called behind a token does not count. -/
def depth : Grammar ρ → Nat
  | .token _ => 1
  | .empty => 1
  | .rule name => height name + 1
  | .choice first second => max first.depth second.depth + 1
  | .sequence steps _ => depthOfSteps steps + 1
  | .fold first other _ _ =>
    max first.depth (if first.mayBeEmpty nullable then other.depth + 1 else 0) + 1
  | .block _ _ _ _ => 1
  | .items element _ _ _ => element.depth + 2
  | .prefixed _ _ _ => 1
  | .suffixed operand _ _ => operand.depth + 1
  | .ahead inner _ _ => inner.depth + 1
where
  /-- How deep the calls of several steps nest at the place of the first one. -/
  depthOfSteps : List (Step (Grammar ρ)) → Nat
    | [] => 1
    | ⟨g, _⟩ :: rest =>
      max g.depth (if g.mayBeEmpty nullable then depthOfSteps rest else 0) + 1

/-- Whether everything in a grammar that is repeated takes a token each time, and whatever may be
called behind a token nests at most as deep as `width`. -/
def progresses (width : Nat) : Grammar ρ → Bool
  | .token _ => true
  | .empty => true
  | .rule _ => true
  | .choice first second => first.progresses width && second.progresses width
  | .sequence steps _ => allProgress width steps
  | .fold first other _ _ =>
    first.progresses width && other.progresses width && !other.mayBeEmpty nullable
      && decide (other.depth nullable height + 1 ≤ width)
  | .block _ _ inner _ => inner.progresses width && decide (inner.depth nullable height ≤ width)
  | .items element _ separator _ =>
    element.progresses width && (separator.isSome || !element.mayBeEmpty nullable)
      && decide (element.depth nullable height + 1 ≤ width)
  | .prefixed _ operand _ =>
    operand.progresses width && decide (operand.depth nullable height ≤ width)
  | .suffixed operand _ _ => operand.progresses width
  | .ahead inner _ _ => inner.progresses width
where
  /-- Whether several steps progress. -/
  allProgress (width : Nat) : List (Step (Grammar ρ)) → Bool
    | [] => true
    | ⟨g, _⟩ :: rest =>
      g.progresses width && allProgress width rest
        && decide (depth.depthOfSteps nullable height rest ≤ width)

end

/-- The grammars that a grammar is put together from. -/
def parts : Grammar ρ → List (Grammar ρ)
  | .token _ => []
  | .empty => []
  | .rule _ => []
  | .choice first second => [first, second]
  | .sequence steps _ => steps.map (·.grammar)
  | .fold first other _ _ => [first, other]
  | .block _ _ inner _ => [inner]
  | .items element _ _ _ => [element]
  | .prefixed _ operand _ => [operand]
  | .suffixed operand _ _ => [operand]
  | .ahead inner _ _ => [inner]

/-- What a grammar matches again and again with nothing in between: the elements of a list without
separators, and whatever a fold adds to its first match. -/
def repeated : Grammar ρ → List (Grammar ρ)
  | .items element _ none _ => [element]
  | .fold _ other _ _ => [other]
  | _ => []

/-- Whether a grammar is a part of another one, at any depth. -/
def Contains : Grammar ρ → Grammar ρ → Prop :=
  Relation.ReflTransGen fun g part => part ∈ g.parts

section

variable (rules : ρ → Except ParseFailure (Grammar ρ)) (nullable : ρ → Bool) (height : ρ → Nat)
  (width : Nat)

/-- Whether what is said about the rules is right for their grammars, which are all there. -/
structure Bounded : Prop where
  exists_body (name : ρ) : ∃ body, rules name = .ok body
  nullable_of {name : ρ} {body : Grammar ρ} (h : rules name = .ok body) :
    body.mayBeEmpty nullable = true → nullable name = true
  depth_le {name : ρ} {body : Grammar ρ} (h : rules name = .ok body) :
    body.depth nullable height ≤ height name
  progresses {name : ρ} {body : Grammar ρ} (h : rules name = .ok body) :
    body.progresses nullable height width = true

end

section

variable {nullable : ρ → Bool} {height : ρ → Nat} {width : Nat}

theorem progresses_of_mem_steps {steps : List (Step (Grammar ρ))} {part : Grammar ρ}
    (h : progresses.allProgress nullable height width steps = true)
    (hpart : part ∈ steps.map (·.grammar)) : part.progresses nullable height width = true := by
  induction steps with
  | nil => cases hpart
  | cons step rest ih =>
    simp only [progresses.allProgress, Bool.and_eq_true] at h
    rcases List.mem_cons.mp hpart with rfl | hrest
    · exact h.1.1
    · exact ih h.1.2 hrest

theorem progresses_of_mem_parts {g part : Grammar ρ} (h : g.progresses nullable height width = true)
    (hpart : part ∈ g.parts) : part.progresses nullable height width = true := by
  cases g with
  | token accepts => cases hpart
  | empty => cases hpart
  | rule name => cases hpart
  | choice first second =>
    simp only [progresses, Bool.and_eq_true] at h
    simp only [parts, List.mem_cons, List.not_mem_nil, or_false] at hpart
    rcases hpart with rfl | rfl
    · exact h.1
    · exact h.2
  | sequence steps merge => exact progresses_of_mem_steps h hpart
  | fold first other merge canBeAlone =>
    simp only [progresses, Bool.and_eq_true] at h
    simp only [parts, List.mem_cons, List.not_mem_nil, or_false] at hpart
    rcases hpart with rfl | rfl
    · exact h.1.1.1
    · exact h.1.1.2
  | _ => simp_all [parts, progresses]

theorem progresses_of_contains {g part : Grammar ρ} (h : g.progresses nullable height width = true)
    (hpart : g.Contains part) : part.progresses nullable height width = true := by
  induction hpart with
  | refl => exact h
  | tail _ hmem ih => exact progresses_of_mem_parts ih hmem

theorem mayBeEmpty_of_mem_repeated {g part : Grammar ρ}
    (h : g.progresses nullable height width = true) (hpart : part ∈ g.repeated) :
    part.mayBeEmpty nullable = false := by
  unfold repeated at hpart
  split at hpart <;> simp_all [progresses]

end

/-! ## Moving on -/

section

variable {rules : ρ → Except ParseFailure (Grammar ρ)} {tokens : Array Token}
  {nullable : ρ → Bool} {height : ρ → Nat} {width : Nat}

/-- Whether a match that begins at `place` may end at `next`: behind at least one token more, or
at the same place if it may stay there. -/
def Moves (tokens : Array Token) (mayStay : Bool) (place next : Nat) : Prop :=
  (place < next ∧ next ≤ tokens.size) ∨ (next = place ∧ mayStay = true)

theorem moves_refl (place : Nat) : Moves tokens true place place :=
  .inr ⟨rfl, rfl⟩

theorem Moves.trans {b b' : Bool} {place mid next : Nat} (h : Moves tokens b place mid)
    (h' : Moves tokens b' mid next) : Moves tokens (b && b') place next := by
  rcases h with ⟨hlt, hle⟩ | ⟨rfl, rfl⟩
  · rcases h' with ⟨hlt', hle'⟩ | ⟨rfl, -⟩
    · exact .inl ⟨Nat.lt_trans hlt hlt', hle'⟩
    · exact .inl ⟨hlt, hle⟩
  · simpa using h'

theorem Moves.mono {b b' : Bool} {place next : Nat} (h : Moves tokens b place next)
    (hb : b = true → b' = true) : Moves tokens b' place next :=
  h.imp_right fun ⟨heq, hstay⟩ => ⟨heq, hb hstay⟩

theorem moves_succ {place : Nat} {t : Token} (h : tokens[place]? = some t) (b : Bool) :
    Moves tokens b place (place + 1) := by
  obtain ⟨hlt, -⟩ := Array.getElem?_eq_some_iff.mp h
  exact .inl ⟨Nat.lt_succ_self _, hlt⟩

theorem moves_of_hasText {place : Nat} {text : String} (h : hasText tokens place text = true)
    (b : Bool) : Moves tokens b place (place + 1) := by
  obtain ⟨t, htoken, -⟩ := exists_of_hasText h
  exact moves_succ htoken b

theorem moves_of_hasOperator {place : Nat} {text : String}
    (h : hasOperator tokens place text = true) (b : Bool) :
    Moves tokens b place (place + 1) := by
  obtain ⟨t, htoken, -⟩ := exists_of_hasOperator h
  exact moves_succ htoken b

theorem moves_of_separates {separator : Option String} {place next : Nat}
    (h : Separates tokens separator place next) : Moves tokens true place next := by
  cases separator with
  | none =>
    subst h
    exact moves_refl _
  | some text => exact h.2 ▸ moves_of_hasText h.1 true

variable {M : Grammar ρ → Nat → Tree → Nat → Prop} (hM : ∀ g place tree next,
  M g place tree next → Moves tokens (g.mayBeEmpty nullable) place next)

include hM

theorem moves_of_matchesSteps {steps : List (Step (Grammar ρ))} {place next : Nat}
    {trees : List Tree}
    (h : MatchesSteps M steps place trees next) :
    Moves tokens (mayBeEmpty.allMayBeEmpty nullable steps) place next := by
  induction h with
  | nil place => exact moves_refl place
  | cons hstep _ ih => exact (hM _ _ _ _ hstep).trans ih

theorem moves_of_matchesFold {other : Grammar ρ} {merge : Tree → Tree → Tree}
    {tree result : Tree} {place next : Nat}
    (h : MatchesFold M other merge tree place result next) : Moves tokens true place next := by
  induction h with
  | done tree place => exact moves_refl place
  | more hpiece _ ih => exact ((hM _ _ _ _ hpiece).trans ih).mono fun _ => rfl

theorem moves_of_matchesItems {element : Grammar ρ} {separator : Option String}
    {place next : Nat} {trees : List Tree}
    (h : MatchesItems tokens M element separator place trees next) :
    Moves tokens (trees.isEmpty || element.mayBeEmpty nullable) place next := by
  induction h with
  | nil place => exact moves_refl place
  | last helement => exact hM _ _ _ _ helement
  | more helement hseparator _ ih =>
    have hrest := (moves_of_separates hseparator).trans ih
    exact ((hM _ _ _ _ helement).trans hrest).mono fun hstay => (Bool.and_eq_true_iff.mp hstay).1

theorem Bounded.moves_of_matchesBy (hbounded : Bounded rules nullable height width)
    {g : Grammar ρ} {place next : Nat} {tree : Tree}
    (h : MatchesBy rules tokens M g place tree next) :
    Moves tokens (g.mayBeEmpty nullable) place next := by
  cases h with
  | token htoken _ => exact moves_succ htoken _
  | empty => exact moves_refl place
  | rule hbody htree => exact (hM _ _ _ _ htree).mono (hbounded.nullable_of hbody)
  | first htree => exact (hM _ _ _ _ htree).mono fun hstay => Bool.or_eq_true_iff.mpr (.inl hstay)
  | second htree => exact (hM _ _ _ _ htree).mono fun hstay => Bool.or_eq_true_iff.mpr (.inr hstay)
  | sequence hsteps _ => exact moves_of_matchesSteps hM hsteps
  | alone hfirst => exact (hM _ _ _ _ hfirst).mono id
  | fold hfirst hpiece hrest =>
    have hothers := (hM _ _ _ _ hpiece).trans (moves_of_matchesFold hM hrest)
    exact ((hM _ _ _ _ hfirst).trans hothers).mono fun hstay => (Bool.and_eq_true_iff.mp hstay).1
  | block hopening hinner hclosing =>
    have hend := (hM _ _ _ _ hinner).trans (moves_of_hasText hclosing true)
    exact ((moves_of_hasText hopening false).trans hend).mono nofun
  | @items _ _ _ canBeEmpty _ _ trees hitems hempty =>
    refine (moves_of_matchesItems hM hitems).mono fun hstay => ?_
    rcases Bool.or_eq_true_iff.mp hstay with hnil | helement
    · exact Bool.or_eq_true_iff.mpr (.inl (hempty (List.isEmpty_iff.mp hnil)))
    · exact Bool.or_eq_true_iff.mpr (.inr helement)
  | prefixed hoperator hoperand =>
    exact ((moves_of_hasOperator hoperator false).trans (hM _ _ _ _ hoperand)).mono nofun
  | suffixed hoperand hoperator =>
    exact ((hM _ _ _ _ hoperand).trans (moves_of_hasOperator hoperator false)).mono fun hstay =>
      (Bool.and_eq_true_iff.mp hstay).2
  | ahead hinner _ => exact (hM _ _ _ _ hinner).mono id

omit hM in
/-- A match never goes back, and it takes a token unless its grammar may be empty. -/
theorem Bounded.moves_of_plain (hbounded : Bounded rules nullable height width)
    {fuel place next : Nat} {g : Grammar ρ} {tree : Tree}
    (h : plain rules tokens fuel g place = .ok (some (tree, next))) :
    Moves tokens (g.mayBeEmpty nullable) place next :=
  plain_induction (P := fun g place _ next => Moves tokens (g.mayBeEmpty nullable) place next)
    (fun hM _ _ _ _ hmatch => moves_of_matchesBy hM hbounded hmatch) h

end

end MiniC.Grammar
