import MiniC.Proofs.Scopes

set_option autoImplicit false

/-! # Calls are isolated from the scopes of their callers

The body of a function lies in the global scope, wherever it is called. So a call sees nothing of
the scopes that are open around it: from two states that differ in their local scopes only, it has
the same result or the same stop, and the states at the end differ in these local scopes only. To
compare two runs of a call, the scopes that it opens are numbered from its own scope on. The numbers
of the two runs differ, but what a name means does not. -/

namespace MiniC

namespace Machine

/-- Whether a state differs from another one at most in its scopes and events. -/
def SameStore (m m' : Machine) : Prop :=
  ∃ frames current events, m' = { m with frames, current, events }

theorem ScopeFree.eq {α : Type} {f : Machine → α} (hf : ScopeFree f) {m m' : Machine}
    (h : m.SameStore m') : f m' = f m := by
  obtain ⟨frames, current, events, rfl⟩ := h
  exact hf m frames current events

/-! ## Scopes that look alike -/

/-- Whether the outermost scope is the same in two stacks of scopes. -/
def SameRoot (frames₁ frames₂ : Array Frame) : Prop :=
  ∃ root, frames₁[globalScope]? = some root ∧ frames₂[globalScope]? = some root ∧
    root.parent = none

/-- The number of the scope around the `j`-th scope of a call whose scopes have the numbers from `b`
on. -/
def around (b : Nat) : Nat → Nat
  | 0 => globalScope
  | j + 1 => b + j

/-- Whether two stacks of scopes are alike from the scope of a call on. The scopes of the call have
the numbers from `b₁` on and from `b₂` on, and the `n`-th of them is the current one. -/
structure Aligned (b₁ b₂ n : Nat) (frames₁ : Array Frame) (current₁ : Nat)
    (frames₂ : Array Frame) (current₂ : Nat) : Prop where
  root : SameRoot frames₁ frames₂
  positive₁ : 0 < b₁
  positive₂ : 0 < b₂
  size₁ : frames₁.size = b₁ + n + 1
  size₂ : frames₂.size = b₂ + n + 1
  current₁ : current₁ = b₁ + n
  current₂ : current₂ = b₂ + n
  locals : ∀ j ≤ n, ∃ bindings owned,
    frames₁[b₁ + j]? = some ⟨some (around b₁ j), bindings, owned⟩ ∧
    frames₂[b₂ + j]? = some ⟨some (around b₂ j), bindings, owned⟩

section

variable {frames₁ frames₂ : Array Frame} {current₁ current₂ : Nat}

theorem SameRoot.lookupFrom_eq (h : SameRoot frames₁ frames₂) (id steps₁ steps₂ : Nat) :
    lookupFrom frames₁ id (steps₁ + 1) globalScope =
      lookupFrom frames₂ id (steps₂ + 1) globalScope := by
  obtain ⟨root, hroot₁, hroot₂, hparent⟩ := h
  simp only [lookupFrom, hroot₁, hroot₂, hparent]

namespace Aligned

variable {b₁ b₂ n : Nat}

/-- From the `j`-th scope of a call, the global scope is reached in `j + 1` steps. -/
theorem lookupFrom_eq (h : Aligned b₁ b₂ n frames₁ current₁ frames₂ current₂)
    (id steps₁ steps₂ : Nat) {j : Nat} (hj : j ≤ n) :
    lookupFrom frames₁ id (steps₁ + j + 2) (b₁ + j) =
      lookupFrom frames₂ id (steps₂ + j + 2) (b₂ + j) := by
  obtain ⟨bindings, owned, hframe₁, hframe₂⟩ := h.locals j hj
  have haround : lookupFrom frames₁ id (steps₁ + j + 1) (around b₁ j) =
      lookupFrom frames₂ id (steps₂ + j + 1) (around b₂ j) := by
    cases j with
    | zero => exact h.root.lookupFrom_eq id steps₁ steps₂
    | succ j => exact h.lookupFrom_eq id steps₁ steps₂ (Nat.le_of_succ_le hj)
  rw [lookupFrom, lookupFrom, hframe₁, hframe₂]
  simp only [haround, Frame.lookup]

/-- The current scope and those around it are no more than there are scopes. -/
theorem lookup_eq {m₁ m₂ : Machine} (h : Aligned b₁ b₂ n m₁.frames m₁.current m₂.frames m₂.current)
    (id : Nat) : m₁.lookup id = m₂.lookup id := by
  have hfuel := h.lookupFrom_eq id (b₁ - 1) (b₂ - 1) (Nat.le_refl n)
  have hsize₁ : m₁.frames.size = b₁ - 1 + n + 2 := by have := h.size₁; have := h.positive₁; omega
  have hsize₂ : m₂.frames.size = b₂ - 1 + n + 2 := by have := h.size₂; have := h.positive₂; omega
  rw [lookup, lookup, hsize₁, hsize₂, h.current₁, h.current₂, hfuel]

/-- A change of the current scope that is the same in both stacks. -/
theorem modify (h : Aligned b₁ b₂ n frames₁ current₁ frames₂ current₂) {g : Frame → Frame}
    (hg : ∀ bindings owned, ∃ bindings' owned', ∀ parent,
      g ⟨parent, bindings, owned⟩ = ⟨parent, bindings', owned'⟩) :
    Aligned b₁ b₂ n (frames₁.modify current₁ g) current₁ (frames₂.modify current₂ g) current₂ where
  root := by
    obtain ⟨root, hroot₁, hroot₂, hparent⟩ := h.root
    have hlocal₁ : current₁ ≠ globalScope := by
      rw [h.current₁]
      exact Nat.ne_of_gt (Nat.add_pos_left h.positive₁ n)
    have hlocal₂ : current₂ ≠ globalScope := by
      rw [h.current₂]
      exact Nat.ne_of_gt (Nat.add_pos_left h.positive₂ n)
    refine ⟨root, ?_, ?_, hparent⟩
    · rw [Array.getElem?_modify, if_neg hlocal₁, hroot₁]
    · rw [Array.getElem?_modify, if_neg hlocal₂, hroot₂]
  positive₁ := h.positive₁
  positive₂ := h.positive₂
  size₁ := by rw [Array.size_modify, h.size₁]
  size₂ := by rw [Array.size_modify, h.size₂]
  current₁ := h.current₁
  current₂ := h.current₂
  locals j hj := by
    obtain ⟨bindings, owned, hframe₁, hframe₂⟩ := h.locals j hj
    rw [Array.getElem?_modify, Array.getElem?_modify, h.current₁, h.current₂, hframe₁, hframe₂]
    by_cases hjn : j = n
    · obtain ⟨bindings', owned', hg⟩ := hg bindings owned
      subst hjn
      refine ⟨bindings', owned', ?_, ?_⟩
      · rw [if_pos rfl, Option.map_some, hg]
      · rw [if_pos rfl, Option.map_some, hg]
    · refine ⟨bindings, owned, ?_, ?_⟩
      · rw [if_neg (by omega)]
      · rw [if_neg (by omega)]

theorem own {m₁ m₂ : Machine}
    (h : Aligned b₁ b₂ n m₁.frames m₁.current m₂.frames m₂.current)
    (hnext : m₁.arena.next = m₂.arena.next) (values : Array Value) :
    Aligned b₁ b₂ n (m₁.own values).2.frames m₁.current (m₂.own values).2.frames m₂.current := by
  rw [frames_own, frames_own, hnext]
  exact h.modify fun bindings owned => ⟨bindings, owned.push _, fun _ => rfl⟩

theorem bind {m₁ m₂ : Machine}
    (h : Aligned b₁ b₂ n m₁.frames m₁.current m₂.frames m₂.current)
    (hnext : m₁.arena.next = m₂.arena.next) (id : Nat) (t : CType) (v : Value) :
    Aligned b₁ b₂ n (m₁.bind id t v).frames m₁.current (m₂.bind id t v).frames m₂.current := by
  rw [frames_bind, frames_bind, hnext]
  refine (h.own hnext #[v]).modify fun bindings owned => ?_
  exact ⟨(Frame.bind ⟨none, bindings, owned⟩ id ⟨m₂.arena.next, t⟩).bindings, owned, fun _ => rfl⟩

/-- A new scope in the current one. -/
theorem push (h : Aligned b₁ b₂ n frames₁ current₁ frames₂ current₂) :
    Aligned b₁ b₂ (n + 1) (frames₁.push (.opened (some current₁))) frames₁.size
      (frames₂.push (.opened (some current₂))) frames₂.size where
  root := by
    obtain ⟨root, hroot₁, hroot₂, hparent⟩ := h.root
    refine ⟨root, ?_, ?_, hparent⟩
    · rw [Array.getElem?_push, if_neg (by rw [h.size₁, globalScope]; omega), hroot₁]
    · rw [Array.getElem?_push, if_neg (by rw [h.size₂, globalScope]; omega), hroot₂]
  positive₁ := h.positive₁
  positive₂ := h.positive₂
  size₁ := by rw [Array.size_push, h.size₁, Nat.add_assoc b₁]
  size₂ := by rw [Array.size_push, h.size₂, Nat.add_assoc b₂]
  current₁ := h.size₁
  current₂ := h.size₂
  locals j hj := by
    rw [Array.getElem?_push, Array.getElem?_push, h.size₁, h.size₂]
    rcases Nat.lt_or_eq_of_le hj with hj | rfl
    · rw [if_neg (by omega), if_neg (by omega)]
      exact h.locals j (Nat.le_of_lt_succ hj)
    · refine ⟨[], #[], ?_, ?_⟩
      · rw [if_pos (by omega), h.current₁]
        rfl
      · rw [if_pos (by omega), h.current₂]
        rfl

end Aligned

/-- The scope of a function that is called, in the global scope. -/
theorem SameRoot.aligned (h : SameRoot frames₁ frames₂) :
    Aligned frames₁.size frames₂.size 0 (frames₁.push (.opened (some globalScope))) frames₁.size
      (frames₂.push (.opened (some globalScope))) frames₂.size := by
  obtain ⟨root, hroot₁, hroot₂, hparent⟩ := h
  have hpositive₁ := (Array.getElem?_eq_some_iff.mp hroot₁).1
  have hpositive₂ := (Array.getElem?_eq_some_iff.mp hroot₂).1
  refine ⟨⟨root, ?_, ?_, hparent⟩, hpositive₁, hpositive₂, ?_, ?_, rfl, rfl, ?_⟩
  · rw [Array.getElem?_push, if_neg (Nat.ne_of_lt hpositive₁), hroot₁]
  · rw [Array.getElem?_push, if_neg (Nat.ne_of_lt hpositive₂), hroot₂]
  · rw [Array.size_push]
  · rw [Array.size_push]
  · intro j hj
    obtain rfl : j = 0 := Nat.le_zero.mp hj
    refine ⟨[], #[], ?_, ?_⟩
    · rw [Nat.add_zero, Array.getElem?_push_size]
      rfl
    · rw [Nat.add_zero, Array.getElem?_push_size]
      rfl

end

/-! ## States that look alike -/

/-- Whether two states agree outside their scopes and events, and their scopes are related. -/
structure Paired (S : Array Frame → Nat → Array Frame → Nat → Prop) (m₁ m₂ : Machine) : Prop where
  store : m₁.SameStore m₂
  scopes : S m₁.frames m₁.current m₂.frames m₂.current

/-- The top scopes of two stacks that are alike own the same buffers. -/
theorem SameStore.pop {b₁ b₂ n : Nat} {m₁ m₂ : Machine} (h : m₁.SameStore m₂)
    (haligned : Aligned b₁ b₂ n m₁.frames m₁.current m₂.frames m₂.current) :
    m₁.pop.SameStore m₂.pop := by
  obtain ⟨bindings, owned, hframe₁, hframe₂⟩ := haligned.locals n (Nat.le_refl n)
  have hback₁ : m₁.frames.back? = some ⟨some (around b₁ n), bindings, owned⟩ := by
    rw [Array.back?_eq_getElem?, haligned.size₁]
    exact hframe₁
  have hback₂ : m₂.frames.back? = some ⟨some (around b₂ n), bindings, owned⟩ := by
    rw [Array.back?_eq_getElem?, haligned.size₂]
    exact hframe₂
  rw [pop_eq hback₁, pop_eq hback₂]
  obtain ⟨frames, current, events, rfl⟩ := h
  exact ⟨_, _, _, rfl⟩

end Machine

namespace Run

open Machine

variable {α β : Type}

/-! ## Runs from states that look alike -/

/-- Whether two runs end in the same way, in related states. -/
inductive SameEnd (R : Machine → Machine → Prop) :
    EStateM.Result Stop Machine α → EStateM.Result Stop Machine α → Prop
  | ok (a : α) {t₁ t₂ : Machine} (h : R t₁ t₂) : SameEnd R (.ok a t₁) (.ok a t₂)
  | error (stop : Stop) {t₁ t₂ : Machine} (h : R t₁ t₂) :
    SameEnd R (.error stop t₁) (.error stop t₂)

theorem SameEnd.imp {R R' : Machine → Machine → Prop} (h : ∀ t₁ t₂, R t₁ t₂ → R' t₁ t₂)
    {end₁ end₂ : EStateM.Result Stop Machine α} (hend : SameEnd R end₁ end₂) :
    SameEnd R' end₁ end₂ := by
  cases hend with
  | ok a ht => exact .ok a (h _ _ ht)
  | error stop ht => exact .error stop (h _ _ ht)

/-- Whether a run ends in the same way from all related states, and keeps them related. -/
def Respects (R : Machine → Machine → Prop) (x : Run α) : Prop :=
  ∀ m₁ m₂, R m₁ m₂ → SameEnd R (x.exec m₁) (x.exec m₂)

section

variable {R : Machine → Machine → Prop}

theorem respects_pure (a : α) : Respects R (pure a : Run α) :=
  fun _ _ h => .ok a h

theorem respects_throw (stop : Stop) : Respects R (throw stop : Run α) :=
  fun _ _ h => .error stop h

theorem respects_bind {x : Run α} {f : α → Run β} (hx : Respects R x)
    (hf : ∀ a, Respects R (f a)) : Respects R (x >>= f) := by
  intro m₁ m₂ h
  have hend := hx m₁ m₂ h
  generalize hx₁ : x.exec m₁ = end₁ at hend
  generalize hx₂ : x.exec m₂ = end₂ at hend
  cases hend with
  | ok a ht =>
    rw [Traced.exec_bind_of_ok f hx₁, Traced.exec_bind_of_ok f hx₂]
    exact hf a _ _ ht
  | error stop ht =>
    rw [Traced.exec_bind_of_error f hx₁, Traced.exec_bind_of_error f hx₂]
    exact .error stop ht

/-- A step that goes on in the same way from related states. -/
theorem respects_observe {f : Machine → Run α} (hsame : ∀ m₁ m₂, R m₁ m₂ → f m₁ = f m₂)
    (hf : ∀ m, Respects R (f m)) : Respects R (get >>= f) := by
  intro m₁ m₂ h
  change SameEnd R ((f m₁).exec m₁) ((f m₂).exec m₂)
  rw [← hsame m₁ m₂ h]
  exact hf m₁ m₁ m₂ h

theorem respects_modifyGet {f : Machine → α × Machine}
    (hf : ∀ m₁ m₂, R m₁ m₂ → (f m₁).1 = (f m₂).1 ∧ R (f m₁).2 (f m₂).2) :
    Respects R (modifyGet f) := by
  intro m₁ m₂ h
  obtain ⟨hresult, ht⟩ := hf m₁ m₂ h
  rw [Traced.exec_modifyGet, Traced.exec_modifyGet, hresult]
  exact .ok _ ht

theorem respects_located {x : Run α} (pos : Option Position) (hx : Respects R x) :
    Respects R (located pos x) := by
  intro m₁ m₂ h
  have hend := hx m₁ m₂ h
  simp only [located, Traced.mapError]
  generalize x.exec m₁ = end₁ at hend
  generalize x.exec m₂ = end₂ at hend
  cases hend with
  | ok a ht => exact .ok a ht
  | error stop ht => exact .error _ ht

/-- A run between two changes of the state that relate the states in it as it needs them. -/
theorem sameEnd_between {R' : Machine → Machine → Prop} {x : Run α} (hx : Respects R x)
    {first last : Option Deed} {enter₁ enter₂ leave₁ leave₂ : Machine → Machine}
    {m₁ m₂ : Machine} (henter : R (enter₁ m₁) (enter₂ m₂))
    (hleave : R (x.after (enter₁ m₁)) (x.after (enter₂ m₂)) →
      R' (leave₁ (x.after (enter₁ m₁))) (leave₂ (x.after (enter₂ m₂)))) :
    SameEnd R' ((x.between first last enter₁ leave₁).exec m₁)
      ((x.between first last enter₂ leave₂).exec m₂) := by
  have hend := hx _ _ henter
  simp only [Traced.between]
  generalize hx₁ : x.exec (enter₁ m₁) = end₁ at hend
  generalize hx₂ : x.exec (enter₂ m₂) = end₂ at hend
  cases hend with
  | ok a ht =>
    rw [Traced.after_of_ok hx₁, Traced.after_of_ok hx₂] at hleave
    exact .ok a (hleave ht)
  | error stop ht =>
    rw [Traced.after_of_error hx₁, Traced.after_of_error hx₂] at hleave
    exact .error stop (hleave ht)

end

/-! ## Steps that leave scopes alone -/

section

variable {S : Array Frame → Nat → Array Frame → Nat → Prop}

/-- The steps that leave scopes alone respect agreement outside the scopes, however these are
related. -/
theorem closed_respects : Closed (Respects (Paired S)) where
  pure := respects_pure
  bind := respects_bind
  stop _ _ := respects_throw _
  observe hfree hf := respects_observe (fun _ _ h => (hfree.eq h.store).symm) fun m =>
    hf m fun _ => respects_throw _
  alloc values := respects_modifyGet fun m₁ m₂ h => by
    obtain ⟨⟨frames, current, events, rfl⟩, hscopes⟩ := h
    exact ⟨rfl, ⟨_, _, _, rfl⟩, hscopes⟩
  put p v := respects_modifyGet fun m₁ m₂ h => by
    obtain ⟨⟨frames, current, events, rfl⟩, hscopes⟩ := h
    exact ⟨rfl, ⟨_, _, _, rfl⟩, hscopes⟩
  beside f hbeside hfree := respects_modifyGet fun m₁ m₂ h => by
    have hsame := hfree.eq h.store
    obtain ⟨records₁, output₁, events₁, -, h₁⟩ := hbeside m₁
    obtain ⟨records₂, output₂, events₂, -, h₂⟩ := hbeside m₂
    obtain ⟨⟨frames, current, events, rfl⟩, hscopes⟩ := h
    rw [h₁, h₂] at hsame ⊢
    obtain ⟨hresult, rfl, rfl⟩ : (f m₁).1 = (f _).1 ∧ records₁ = records₂ ∧ output₁ = output₂ := by
      simpa [eq_comm] using hsame
    exact ⟨hresult, ⟨_, _, _, rfl⟩, hscopes⟩

end

/-! ## Runs inside a call -/

/-- A run that leaves the scopes as it found them, and inside a call does not depend on the scopes
around that call. -/
def Isolated (x : Run α) : Prop :=
  Bracketed x ∧ ∀ b₁ b₂ n, Respects (Paired (Aligned b₁ b₂ n)) x

theorem isolated_inScope {x : Run α} (hx : Isolated x) : Isolated (inScope x) := by
  refine ⟨composed_bracketed.inScope hx.1, fun b₁ b₂ n m₁ m₂ h => ?_⟩
  refine sameEnd_between (hx.2 b₁ b₂ (n + 1)) ?_ fun ht => ?_
  · obtain ⟨⟨frames, current, events, rfl⟩, hscopes⟩ := h
    exact ⟨⟨_, _, _, rfl⟩, hscopes.push⟩
  · have hw₁ := (hx.1 (m₁.push m₁.current)).1
    have hw₂ := (hx.1 (m₂.push m₂.current)).1
    refine ⟨ht.store.pop ht.scopes, ?_⟩
    rw [((opens_push m₁ _).pop hw₁).1, ((opens_push m₂ _).pop hw₂).1, (leave_push hw₁).1,
      (leave_push hw₂).1]
    exact h.scopes

/-- A call, wherever it is made: around it, only the global scopes have to be the same. -/
theorem respects_inCall {S : Array Frame → Nat → Array Frame → Nat → Prop}
    (hroot : ∀ {frames₁ current₁ frames₂ current₂},
      S frames₁ current₁ frames₂ current₂ → SameRoot frames₁ frames₂)
    {x : Run α} (name : String) (hx : Isolated x) : Respects (Paired S) (inCall name x) := by
  intro m₁ m₂ h
  change SameEnd (Paired S)
    ((x.between (some .call) (some .return) (·.enterCall name) (·.leaveCall m₁.current)).exec m₁)
    ((x.between (some .call) (some .return) (·.enterCall name) (·.leaveCall m₂.current)).exec m₂)
  refine sameEnd_between (hx.2 m₁.frames.size m₂.frames.size 0) ?_ fun ht => ?_
  · obtain ⟨⟨frames, current, events, rfl⟩, hscopes⟩ := h
    exact ⟨⟨_, _, _, rfl⟩, (hroot hscopes).aligned⟩
  · have hframes₁ := ((opens_enterCall m₁ name).pop (hx.1 _).1).1
    have hframes₂ := ((opens_enterCall m₂ name).pop (hx.1 _).1).1
    refine ⟨?_, ?_⟩
    · obtain ⟨frames, current, events, hpop⟩ := ht.store.pop ht.scopes
      rw [leaveCall, leaveCall, hpop]
      exact ⟨_, _, _, rfl⟩
    · rw [leaveCall, leaveCall, hframes₁, hframes₂]
      exact h.scopes

theorem isolated_throw (stop : Stop) : Isolated (throw stop : Run α) :=
  ⟨bracketed_throw stop, fun _ _ _ => respects_throw stop⟩

/-- All runs are isolated from the scopes around the call that they are in. -/
theorem composed_isolated : Composed @Isolated where
  pure a := ⟨composed_bracketed.pure a, fun _ _ _ => respects_pure a⟩
  bind hx hf := ⟨bracketed_bind hx.1 fun a => (hf a).1, fun b₁ b₂ n =>
    respects_bind (hx.2 b₁ b₂ n) fun a => (hf a).2 b₁ b₂ n⟩
  stop _ _ := isolated_throw _
  anyStop stop _ _ := isolated_throw stop
  missingLabel _ _ := isolated_throw _
  observe hfree hf := ⟨composed_bracketed.observe hfree fun m _ => (hf m fun _ =>
    isolated_throw _).1, fun b₁ b₂ n => closed_respects.observe hfree fun m _ =>
      (hf m fun _ => isolated_throw _).2 b₁ b₂ n⟩
  observeName id _ hname hf := ⟨composed_bracketed.observeName id hname fun m => (hf m).1,
    fun b₁ b₂ n => respects_observe (fun m₁ m₂ h => hname m₁ m₂ (h.scopes.lookup_eq id))
      fun m => (hf m).2 b₁ b₂ n⟩
  alloc values := ⟨composed_bracketed.alloc values, fun _ _ _ => closed_respects.alloc values⟩
  put p v := ⟨composed_bracketed.put p v, fun _ _ _ => closed_respects.put p v⟩
  beside f hf hfree := ⟨composed_bracketed.beside f hf hfree, fun _ _ _ =>
    closed_respects.beside f hf hfree⟩
  keepString slot values := ⟨composed_bracketed.keepString slot values, fun _ _ _ =>
    respects_modifyGet fun m₁ m₂ h => by
      obtain ⟨⟨frames, current, events, rfl⟩, hscopes⟩ := h
      exact ⟨rfl, ⟨_, _, _, rfl⟩, hscopes⟩⟩
  register f hf hfree := ⟨composed_bracketed.register f hf hfree, fun _ _ _ =>
    respects_modifyGet fun m₁ m₂ h => by
      have hsame := hfree.eq h.store
      obtain ⟨functions₁, prototypes₁, h₁⟩ := hf m₁
      obtain ⟨functions₂, prototypes₂, h₂⟩ := hf m₂
      obtain ⟨⟨frames, current, events, rfl⟩, hscopes⟩ := h
      rw [h₁, h₂] at hsame
      obtain ⟨rfl, rfl⟩ : functions₁ = functions₂ ∧ prototypes₁ = prototypes₂ := by
        simpa [eq_comm] using hsame
      refine ⟨rfl, ?_⟩
      change Paired _ (f m₁) (f _)
      rw [h₁, h₂]
      exact ⟨⟨_, _, _, rfl⟩, hscopes⟩⟩
  own values := ⟨composed_bracketed.own values, fun _ _ _ =>
    respects_modifyGet fun m₁ m₂ h => by
      obtain ⟨⟨frames, current, events, rfl⟩, hscopes⟩ := h
      exact ⟨rfl, ⟨_, _, _, rfl⟩, hscopes.own rfl values⟩⟩
  bindName id t v := ⟨composed_bracketed.bindName id t v, fun _ _ _ =>
    respects_modifyGet fun m₁ m₂ h => by
      obtain ⟨⟨frames, current, events, rfl⟩, hscopes⟩ := h
      exact ⟨rfl, ⟨_, _, _, rfl⟩, hscopes.bind rfl id t v⟩⟩
  introduce name t v := ⟨composed_bracketed.introduce name t v, fun _ _ _ => by
    refine respects_bind (respects_modifyGet fun m₁ m₂ h => ?_) fun _ _ _ h => .ok () h
    obtain ⟨⟨frames, current, events, rfl⟩, hscopes⟩ := h
    exact ⟨rfl, ⟨_, _, _, rfl⟩, hscopes.bind rfl name.token.id t v⟩⟩
  use leaf := ⟨composed_bracketed.use leaf, fun _ _ _ _ _ h => .ok () h⟩
  located pos hx := ⟨composed_bracketed.located pos hx.1, fun b₁ b₂ n =>
    respects_located pos (hx.2 b₁ b₂ n)⟩
  inScope := isolated_inScope
  inCall name hx := ⟨composed_bracketed.inCall name hx.1, fun _ _ _ =>
    respects_inCall (fun h => h.root) name hx⟩

/-! ## Calls -/

section

variable {S : Array Frame → Nat → Array Frame → Nat → Prop}

theorem respects_callResult (f : FunctionDef) (pos : Option Position) (signal : Signal) :
    Respects (Paired S) (callResult f pos signal) := by
  cases signal with
  | normal => exact respects_pure _
  | «break» => exact respects_throw _
  | «continue» => exact respects_throw _
  | goto label => exact respects_throw _
  | «return» value =>
    cases value with
    | none => exact respects_pure _
    | some v =>
      rw [callResult]
      split
      · exact respects_pure _
      · exact respects_bind (closed_respects.convert _ v pos) fun _ => respects_pure _

theorem respects_call (hroot : ∀ {frames₁ current₁ frames₂ current₂},
      S frames₁ current₁ frames₂ current₂ → SameRoot frames₁ frames₂)
    (known : Nat → Option CType) (fuel : Nat) (f : FunctionDef) (args : List Value)
    (pos : Option Position) : Respects (Paired S) (call known fuel f args pos) := by
  cases fuel with
  | zero => exact respects_throw _
  | succ fuel =>
    have hctx := composed_isolated.context known fuel
    have hbody : Respects (Paired S) (do
        let signal ← inCall f.name do
          bindParams known f.params args
          stmt ⟨known, call known fuel⟩ fuel (.block f.body)
        callResult f pos signal) := by
      refine respects_bind (respects_inCall hroot f.name ?_) fun signal =>
        respects_callResult f pos signal
      exact hctx.bind (hctx.bindParams known f.params args) fun _ => hctx.stmt fuel _
    -- How deep calls are nested is the same in both states, so both refuse or both go on.
    have hdepth : Respects (Paired S) (do
        if maxDepth ≤ (← get).depth then fail .callOverflow pos
        let signal ← inCall f.name do
          bindParams known f.params args
          stmt ⟨known, call known fuel⟩ fuel (.block f.body)
        callResult f pos signal) := by
      refine closed_respects.observe (fun _ _ _ _ => rfl) fun m _ => ?_
      dsimp only
      split
      · exact respects_bind (respects_throw _) fun _ => hbody
      · exact hbody
    rw [call]
    split
    · exact respects_bind (respects_throw _) fun _ => hdepth
    · exact hdepth

end

/-- Two states may have any local scopes, as long as they agree outside their scopes and have the
same global scope. A call from them has the same result or is stopped in the same way; the states at
its end agree outside their scopes again, and each has the scopes that it had. -/
theorem call_isolated (known : Nat → Option CType) (fuel : Nat) (f : FunctionDef)
    (args : List Value) (pos : Option Position) {m₁ m₂ : Machine} (hstore : m₁.SameStore m₂)
    (hroot : SameRoot m₁.frames m₂.frames) :
    SameEnd (fun t₁ t₂ => t₁.SameStore t₂ ∧ t₁.frames = m₁.frames ∧ t₂.frames = m₂.frames)
      ((call known fuel f args pos).exec m₁) ((call known fuel f args pos).exec m₂) := by
  have hcall : Respects (Paired fun frames₁ _ frames₂ _ =>
      frames₁ = m₁.frames ∧ frames₂ = m₂.frames) (call known fuel f args pos) :=
    respects_call (by rintro _ _ _ _ ⟨rfl, rfl⟩; exact hroot) known fuel f args pos
  exact SameEnd.imp (fun t₁ t₂ ht => ⟨ht.store, ht.scopes⟩) (hcall m₁ m₂ ⟨hstore, rfl, rfl⟩)

/-! ## A function that assigns to an undeclared name -/

/-- The function `int f(){n = 2; return n;}`. -/
def assigning : FunctionDef where
  name := "f"
  params := []
  body :=
    let name column slot : Expr := .identifier ⟨⟨⟨.identifier, "n", ⟨1, column⟩, []⟩, 5⟩, slot⟩
    let kind := .integer .plain true .decimal
    let two : Expr := .literal ⟨⟨⟨.literal kind, "2", ⟨1, 13⟩, []⟩, 7⟩, 1⟩ kind
    [.line [.expr (.assign none (name 9 0) two)], .line [.return (some (name 23 2))]]
  returnType := .int

/-- The state in a function with a variable `n`. -/
def insideCaller : Machine :=
  (Machine.start.enterCall "g").bind 5 .int (.int (.plain 1))

/-- The same state, but outside all functions. -/
def outsideCaller : Machine :=
  { insideCaller with frames := Machine.start.frames, current := globalScope }

/-- The variable of the caller is there in one state only, and makes no difference to the call. -/
theorem call_isolated_assigning :
    insideCaller.SameStore outsideCaller ∧
      SameRoot insideCaller.frames outsideCaller.frames ∧
      (insideCaller.lookup 5).isSome ∧ outsideCaller.lookup 5 = none ∧
      SameEnd (fun t₁ t₂ => t₁.SameStore t₂ ∧ t₁.frames = insideCaller.frames ∧
          t₂.frames = outsideCaller.frames)
        ((call (fun _ => none) 10 assigning [] none).exec insideCaller)
        ((call (fun _ => none) 10 assigning [] none).exec outsideCaller) := by
  have hstore : insideCaller.SameStore outsideCaller := ⟨_, _, _, rfl⟩
  have hroot : SameRoot insideCaller.frames outsideCaller.frames := ⟨.opened none, rfl, rfl, rfl⟩
  exact ⟨hstore, hroot, rfl, rfl, call_isolated _ 10 assigning [] none hstore hroot⟩

example : (match (call (fun _ => none) 10 assigning [] none).exec insideCaller with
    | .ok v _ => v
    | .error _ _ => none) = some (.int (.plain 2)) := by decide +kernel

end Run

end MiniC
