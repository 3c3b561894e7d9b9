import MiniC.Proofs.Linkage

set_option autoImplicit false

/-! # Which case of a switch is executed

The rule for a switch leaves the default case out at first: the labels are evaluated one after
another until one equals the selector, and the default body is for the selectors that equal none of
them, wherever it stands among the cases. The program takes the cases as they come, and takes the
default case when it comes to it (`cases_eq`). Both do the same where no label behind the default
case equals the selector, so always where the default case comes last. -/

namespace MiniC

namespace Run

/-! ## The rule -/

/-- Whether a label equals the selector. -/
def isEqual (ctx : Context) (selector : Value) (label : Expr) : Run Bool := do
  lift (Value.compare .eq selector (← eval ctx label))

/-- The body of the first of several labels that equals the selector. -/
def firstEqual (ctx : Context) (selector : Value) :
    List (Expr × List Stmt) → Run (Option (List Stmt))
  | [] => pure none
  | (label, body) :: rest => do
    if ← isEqual ctx selector label then pure (some body) else firstEqual ctx selector rest

/-- The cases that have a label, in order. -/
def labelled (parts : List (Option Expr × List Stmt)) : List (Expr × List Stmt) :=
  parts.filterMap fun (label, body) => label.map (·, body)

/-- The body of the default case. -/
def defaultBody? (parts : List (Option Expr × List Stmt)) : Option (List Stmt) :=
  (parts.find? (·.1.isNone)).map (·.2)

/-- Executes the body that was chosen, if there is one, as a block. A break ends the switch only;
any other signal is handed on. -/
def chosen (ctx : Context) (fuel : Nat) : Option (List Stmt) → Run Signal
  | none => pure .normal
  | some body => do
    match ← stmt ctx fuel (.block body) with
    | .break => pure .normal
    | signal => pure signal

/-- Executes the body of the first label that equals the selector, and the default body only if no
label does. -/
def byLabel (ctx : Context) (fuel : Nat) (selector : Value)
    (parts : List (Option Expr × List Stmt)) : Run Signal := do
  let equal ← firstEqual ctx selector (labelled parts)
  chosen ctx fuel (equal <|> defaultBody? parts)

/-! ## The program -/

/-- The cases up to the first default case. -/
def upToDefault : List (Option Expr × List Stmt) → List (Option Expr × List Stmt)
  | [] => []
  | (none, body) :: _ => [(none, body)]
  | (some label, body) :: rest => (some label, body) :: upToDefault rest

variable (ctx : Context) (fuel : Nat) (selector : Value)

theorem chosen_some (body : List Stmt) :
    chosen ctx fuel (some body) = do return afterCase (← stmt ctx fuel (.block body)) := by
  refine bind_congr fun signal => ?_
  cases signal <;> rfl

/-- The rule holds for the cases up to the default case, as if there were no others. -/
theorem cases_eq (parts : List (Option Expr × List Stmt)) :
    cases ctx fuel selector parts = byLabel ctx fuel selector (upToDefault parts) := by
  induction parts with
  | nil => rfl
  | cons part rest ih =>
    obtain ⟨label, body⟩ := part
    cases label with
    | none => exact (chosen_some ctx fuel body).symm.trans rfl
    | some label =>
      have hrule : byLabel ctx fuel selector (upToDefault ((some label, body) :: rest)) =
          isEqual ctx selector label >>= fun equal =>
            if equal then chosen ctx fuel (some body)
            else byLabel ctx fuel selector (upToDefault rest) := by
        unfold byLabel
        change (isEqual ctx selector label >>= fun equal =>
          if equal then pure (some body) else _) >>= _ = _
        rw [bind_assoc]
        refine bind_congr fun equal => ?_
        cases equal <;> rfl
      rw [hrule, ← ih, chosen_some]
      rfl

theorem labelled_upToDefault (parts : List (Option Expr × List Stmt)) :
    labelled (upToDefault parts) = labelled (parts.takeWhile (·.1.isSome)) := by
  induction parts with
  | nil => rfl
  | cons part rest ih =>
    obtain ⟨label, body⟩ := part
    cases label with
    | none => rfl
    | some label => exact congrArg ((label, body) :: ·) ih

theorem defaultBody?_upToDefault (parts : List (Option Expr × List Stmt)) :
    defaultBody? (upToDefault parts) = defaultBody? parts := by
  induction parts with
  | nil => rfl
  | cons part rest ih =>
    obtain ⟨label, body⟩ := part
    cases label with
    | none => rfl
    | some label => exact ih

theorem labelled_split (parts : List (Option Expr × List Stmt)) :
    labelled parts = labelled (parts.takeWhile (·.1.isSome)) ++
      labelled (parts.dropWhile (·.1.isSome)) := by
  unfold labelled
  rw [← List.filterMap_append, List.takeWhile_append_dropWhile]

theorem firstEqual_append (first second : List (Expr × List Stmt)) :
    firstEqual ctx selector (first ++ second) =
      firstEqual ctx selector first >>= fun equal =>
        match equal with
        | some body => pure (some body)
        | none => firstEqual ctx selector second := by
  induction first with
  | nil => rfl
  | cons part rest ih =>
    obtain ⟨label, body⟩ := part
    change isEqual ctx selector label >>= _ = (isEqual ctx selector label >>= _) >>= _
    rw [bind_assoc]
    refine bind_congr fun equal => ?_
    cases equal with
    | true => rfl
    | false => exact ih

theorem upToDefault_of_last {parts : List (Option Expr × List Stmt)}
    (hlast : ∀ part ∈ parts.dropLast, part.1.isSome) : upToDefault parts = parts := by
  induction parts with
  | nil => rfl
  | cons part rest ih =>
    obtain ⟨label, body⟩ := part
    cases rest with
    | nil => cases label <;> rfl
    | cons next rest =>
      obtain ⟨hlabel, hrest⟩ := List.forall_mem_cons.mp hlast
      cases label with
      | none => cases hlabel
      | some label => exact congrArg ((some label, body) :: ·) (ih hrest)

/-! ## When the program goes by the rule -/

/-- A switch whose default case comes last, or that has none, goes by the rule at every moment. -/
theorem switch_eq_of_last (e : Expr) {parts : List (Option Expr × List Stmt)}
    (hlast : ∀ part ∈ parts.dropLast, part.1.isSome) :
    stmt ctx fuel (.switch e parts) = (do byLabel ctx fuel (← eval ctx e) parts : Run Signal) := by
  refine bind_congr fun v => ?_
  rw [cases_eq, upToDefault_of_last hlast]

/-- A switch executes the body of the first label that equals the selector, and the default body
only if no label does, provided that no label behind the default case equals the selector when the
program comes to the default case. -/
theorem switch_byLabel {e : Expr} {parts : List (Option Expr × List Stmt)} {m : Machine}
    (hbehind : ∀ v m₁ m₂, (eval ctx e).exec m = .ok v m₁ →
      (firstEqual ctx v (labelled (parts.takeWhile (·.1.isSome)))).exec m₁ = .ok none m₂ →
      (firstEqual ctx v (labelled (parts.dropWhile (·.1.isSome)))).exec m₂ = .ok none m₂) :
    (stmt ctx fuel (.switch e parts)).exec m =
      (do byLabel ctx fuel (← eval ctx e) parts : Run Signal).exec m := by
  change (eval ctx e >>= fun v => cases ctx fuel v parts).exec m = (eval ctx e >>= _).exec m
  cases he : (eval ctx e).exec m with
  | error stop m₁ => rw [Traced.exec_bind_of_error _ he, Traced.exec_bind_of_error _ he]
  | ok v m₁ =>
    rw [Traced.exec_bind_of_ok _ he, Traced.exec_bind_of_ok _ he, cases_eq]
    unfold byLabel
    rw [labelled_upToDefault, defaultBody?_upToDefault, labelled_split parts, firstEqual_append,
      bind_assoc]
    cases hfront : (firstEqual ctx v (labelled (parts.takeWhile (·.1.isSome)))).exec m₁ with
    | error stop m₂ =>
      rw [Traced.exec_bind_of_error _ hfront, Traced.exec_bind_of_error _ hfront]
    | ok equal m₂ =>
      rw [Traced.exec_bind_of_ok _ hfront, Traced.exec_bind_of_ok _ hfront]
      cases equal with
      | some body => rfl
      | none =>
        exact (Traced.exec_bind_of_ok (fun equal => chosen ctx fuel (equal <|> defaultBody? parts))
          (hbehind v m₁ m₂ he hfront)).symm

end Run

namespace Program

/-! ## A default case among the others -/

/-- The statement `switch (3) {case 1: return 1; default: return 0; case 2: return 2;}`. -/
def missing : Stmt :=
  .switch (sampleNumber "3" 2 9 0) [
    (some (sampleNumber "1" 4 18 1), [.line [.return (some (sampleNumber "1" 4 28 2))]]),
    (none, [.line [.return (some (sampleNumber "0" 8 47 3))]]),
    (some (sampleNumber "2" 9 55 4), [.line [.return (some (sampleNumber "2" 9 65 5))]])]

/-- The selector equals no label, and the default body is executed, though a label stands behind
it. -/
theorem switch_byLabel_missing :
    EStateM.run' (Run.stmt ⟨fun _ => none, fun _ _ _ => throw .unfinished⟩ 1 missing).exec .start =
      some (.return (some (.int (.plain 0)))) := by
  unfold missing EStateM.run' EStateM.run
  rw [Run.switch_byLabel _ _ fun v m₁ m₂ hv _ => ?_]
  · decide +kernel
  · obtain ⟨hvalue, -⟩ := EStateM.Result.ok.inj hv
    have hunequal : Value.compare .eq v
        ((sampleName "2" 9 55 4).token.value (.integer .plain true .decimal)) = .ok false := by
      rw [← hvalue]
      decide +kernel
    exact Traced.exec_bind_of_ok _ (congrArg (fun result => (Run.lift result).exec m₂) hunequal)

/-- The cases of `switch (1) {default: printf(0); break; case 1: printf(1);}`. -/
def hasty : List (Option Expr × List Stmt) := [
  (none, [
    .line [.expr (.call (.identifier (sampleName "printf" 10 33 3)) [sampleNumber "0" 11 40 4])],
    .line [.break (sampleToken .keyword "break" 13 44)]]),
  (some (sampleNumber "1" 7 56 5), [
    .line [.expr (.call (.identifier (sampleName "printf" 10 59 6)) [sampleNumber "1" 7 66 7])]])]

/-- The program `int main(){switch (1) {default: printf(0); break; case 1: printf(1);} return 0;}`,
where the default case comes first. -/
def switching : Program where
  items := [
    .function (sampleInt 1 0) (sampleName "main" 2 5 1) [] [
      .switch (sampleNumber "1" 7 20 2) hasty,
      .line [.return (some (sampleNumber "0" 11 78 8))]]]

/-- A switch does not always go by the rule: the accepted program prints 0, since it takes the
default case before it looks at the label that equals the selector. -/
theorem not_switch_byLabel :
    switching.Accepted ∧ (switching.run (fun _ => none) 100).2.output = "0\n" ∧
    ¬∀ (ctx : Context) (fuel : Nat) (e : Expr) (parts : List (Option Expr × List Stmt))
      (m : Machine), (Run.stmt ctx fuel (.switch e parts)).exec m =
        (do Run.byLabel ctx fuel (← Run.eval ctx e) parts : Run Signal).exec m := by
  have haccepted : switching.Accepted := by
    unfold Accepted
    cbv
  refine ⟨haccepted, by decide +kernel, fun hall => ?_⟩
  let ctx : Context := ⟨fun _ => none, fun _ _ _ => throw .unfinished⟩
  have hsame := hall ctx 1 (sampleNumber "1" 7 20 2) hasty .start
  have hoccurs :
      ((Run.stmt ctx 1 (.switch (sampleNumber "1" 7 20 2) hasty)).after .start).output = "0\n" := by
    decide +kernel
  rw [Traced.after, hsame] at hoccurs
  revert hoccurs
  decide +kernel

end Program

end MiniC
