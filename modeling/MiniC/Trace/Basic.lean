set_option autoImplicit false

/-! # Computations with a trace

A computation that changes a state and may stop, together with its trace: what happens on the way,
each with the state at that moment. Every change of the state is a moment, so that the trace passes
through all states that the computation does. The trace is there to speak about; to execute a
computation is to take its result only. -/

namespace MiniC

/-- A moment of a computation: what was done, unless only the state was changed, and the state from
then on. -/
structure Moment (δ σ : Type) where
  deed : Option δ
  state : σ

/-- A computation that changes a state `σ`, may stop with an `ε`, and does things of the type `δ` on
the way. -/
structure Traced (ε σ δ α : Type) where
  /-- The result, or why there is none, and the state at the end. -/
  exec : σ → EStateM.Result ε σ α
  /-- What happens on the way. -/
  trace : σ → List (Moment δ σ)

namespace Traced

variable {ε σ δ α β : Type}

instance : CoeFun (Traced ε σ δ α) fun _ => σ → EStateM.Result ε σ α := ⟨exec⟩

/-! ## As a monad -/

/-- The computation in which nothing happens. -/
@[always_inline, inline] protected def pure (a : α) : Traced ε σ δ α where
  exec s := .ok a s
  trace _ := []

/-- One computation after another; the second only if the first did not stop. -/
@[always_inline, inline] protected def bind (x : Traced ε σ δ α) (f : α → Traced ε σ δ β) :
    Traced ε σ δ β where
  exec s :=
    match x.exec s with
    | .ok a s => (f a).exec s
    | .error e s => .error e s
  trace s :=
    x.trace s ++
      match x.exec s with
      | .ok a s => (f a).trace s
      | .error _ _ => []

instance : Monad (Traced ε σ δ) where
  pure := Traced.pure
  bind := Traced.bind

/-- The computation that stops at once. -/
@[always_inline, inline] protected def throw (e : ε) : Traced ε σ δ α where
  exec s := .error e s
  trace _ := []

/-- A computation, and after it another one if the first stopped. -/
@[always_inline, inline] protected def tryCatch (x : Traced ε σ δ α) (handle : ε → Traced ε σ δ α) :
    Traced ε σ δ α where
  exec s :=
    match x.exec s with
    | .ok a s => .ok a s
    | .error e s => (handle e).exec s
  trace s :=
    x.trace s ++
      match x.exec s with
      | .ok _ _ => []
      | .error e s => (handle e).trace s

instance : MonadExceptOf ε (Traced ε σ δ) where
  throw := Traced.throw
  tryCatch := Traced.tryCatch

/-- A change of the state that has a result. -/
@[always_inline, inline] protected def modifyGet (f : σ → α × σ) : Traced ε σ δ α where
  exec s :=
    let (a, s) := f s
    .ok a s
  trace s := [⟨none, (f s).2⟩]

instance : MonadStateOf σ (Traced ε σ δ) where
  get := ⟨fun s => .ok s s, fun _ => []⟩
  set s := Traced.modifyGet fun _ => ((), s)
  modifyGet := Traced.modifyGet

/-! ## Traces -/

/-- Does something that leaves the state as it is. -/
def note (deed : δ) : Traced ε σ δ Unit where
  exec s := .ok () s
  trace s := [⟨some deed, s⟩]

/-- The state at the end of a computation, also of one that stopped. -/
def after (x : Traced ε σ δ α) (s : σ) : σ :=
  match x.exec s with
  | .ok _ s => s
  | .error _ s => s

/-- All states of a computation in order, from the one in which it begins to the one in which it
ends. -/
def states (x : Traced ε σ δ α) (s : σ) : List σ :=
  s :: (x.trace s).map (·.state) ++ [x.after s]

/-! ## Other ways to put computations together -/

/-- A computation that stops for another reason. -/
@[inline] def mapError (f : ε → ε) (x : Traced ε σ δ α) : Traced ε σ δ α where
  exec s :=
    match x.exec s with
    | .ok a s => .ok a s
    | .error e s => .error (f e) s
  trace := x.trace

/-- A computation between two changes of the state, which may count as deeds. The second change is
made however the computation ends. -/
@[inline] def between (first last : Option δ) (enter leave : σ → σ) (x : Traced ε σ δ α) :
    Traced ε σ δ α where
  exec s :=
    match x.exec (enter s) with
    | .ok a s => .ok a (leave s)
    | .error e s => .error e (leave s)
  trace s :=
    ⟨first, enter s⟩ :: x.trace (enter s) ++ [⟨last, leave (x.after (enter s))⟩]

end Traced

end MiniC
