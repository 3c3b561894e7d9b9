import Mathlib.Data.List.Basic
import MiniC.Trace.Basic

set_option autoImplicit false

/-! # Reasoning about traced computations

What the ways to put computations together do to results, traces and states. A property of all
states that a computation passes through is proved along its parts: `Evolves` says that an
invariant holds in all of them, and that each is related to all later ones. -/

namespace MiniC.Traced

variable {ε σ δ α β : Type}

/-! ## Results and traces -/

@[simp]
theorem exec_pure (a : α) (s : σ) : (pure a : Traced ε σ δ α).exec s = .ok a s := rfl

@[simp]
theorem trace_pure (a : α) (s : σ) : (pure a : Traced ε σ δ α).trace s = [] := rfl

@[simp]
theorem exec_throw (e : ε) (s : σ) : (throw e : Traced ε σ δ α).exec s = .error e s := rfl

@[simp]
theorem trace_throw (e : ε) (s : σ) : (throw e : Traced ε σ δ α).trace s = [] := rfl

@[simp]
theorem exec_get (s : σ) : (get : Traced ε σ δ σ).exec s = .ok s s := rfl

@[simp]
theorem trace_get (s : σ) : (get : Traced ε σ δ σ).trace s = [] := rfl

@[simp]
theorem exec_modifyGet (f : σ → α × σ) (s : σ) :
    (modifyGet f : Traced ε σ δ α).exec s = .ok (f s).1 (f s).2 := rfl

@[simp]
theorem trace_modifyGet (f : σ → α × σ) (s : σ) :
    (modifyGet f : Traced ε σ δ α).trace s = [⟨none, (f s).2⟩] := rfl

@[simp]
theorem exec_modify (f : σ → σ) (s : σ) :
    (modify f : Traced ε σ δ PUnit).exec s = .ok () (f s) := rfl

@[simp]
theorem trace_modify (f : σ → σ) (s : σ) :
    (modify f : Traced ε σ δ PUnit).trace s = [⟨none, f s⟩] := rfl

@[simp]
theorem exec_note (deed : δ) (s : σ) : (note deed : Traced ε σ δ Unit).exec s = .ok () s := rfl

@[simp]
theorem trace_note (deed : δ) (s : σ) :
    (note deed : Traced ε σ δ Unit).trace s = [⟨some deed, s⟩] := rfl

/-- A computation with a result ends in some state. -/
theorem exists_exec_of_run' {x : Traced ε σ δ α} {s : σ} {a : α}
    (h : EStateM.run' x.exec s = some a) : ∃ t, x.exec s = .ok a t := by
  unfold EStateM.run' EStateM.run at h
  split at h
  · rename_i b t hexec
    cases h
    exact ⟨t, hexec⟩
  · cases h

/-- The error that a computation ends with, if it ends with one. -/
def error? (x : Traced ε σ δ α) (s : σ) : Option ε :=
  match x.exec s with
  | .ok _ _ => none
  | .error e _ => some e

theorem exists_exec_of_error? {x : Traced ε σ δ α} {s : σ} {e : ε} (h : x.error? s = some e) :
    ∃ t, x.exec s = .error e t := by
  unfold error? at h
  split at h
  · cases h
  · rename_i e' t hexec
    cases h
    exact ⟨t, hexec⟩

section Bind

variable {x : Traced ε σ δ α} {s t : σ} {a : α} {e : ε}

theorem exec_bind_of_ok (f : α → Traced ε σ δ β) (h : x.exec s = .ok a t) :
    (x >>= f).exec s = (f a).exec t := by
  change Traced.exec (Traced.bind x f) s = _
  simp only [Traced.bind, h]

theorem exec_bind_of_error (f : α → Traced ε σ δ β) (h : x.exec s = .error e t) :
    (x >>= f).exec s = .error e t := by
  change Traced.exec (Traced.bind x f) s = _
  simp only [Traced.bind, h]

theorem trace_bind_of_ok (f : α → Traced ε σ δ β) (h : x.exec s = .ok a t) :
    (x >>= f).trace s = x.trace s ++ (f a).trace t := by
  change Traced.trace (Traced.bind x f) s = _
  simp only [Traced.bind, h]

theorem trace_bind_of_error (f : α → Traced ε σ δ β) (h : x.exec s = .error e t) :
    (x >>= f).trace s = x.trace s := by
  change Traced.trace (Traced.bind x f) s = _
  simp only [Traced.bind, h, List.append_nil]

/-- Two computations that begin alike, and go on alike from there, are alike. -/
theorem exec_bind_congr {y : Traced ε σ δ α} {f g : α → Traced ε σ δ β}
    (hxy : x.exec s = y.exec s) (h : ∀ a t, x.exec s = .ok a t → (f a).exec t = (g a).exec t) :
    (x >>= f).exec s = (y >>= g).exec s := by
  cases hx : x.exec s with
  | ok a t => rw [exec_bind_of_ok f hx, exec_bind_of_ok g (hxy ▸ hx), h a t hx]
  | error e t => rw [exec_bind_of_error f hx, exec_bind_of_error g (hxy ▸ hx)]

/-- A computation of two parts has a result only if both have one. -/
theorem exec_bind_eq_ok {f : α → Traced ε σ δ β} {b : β} {u : σ}
    (h : (x >>= f).exec s = .ok b u) :
    ∃ a t, x.exec s = .ok a t ∧ (f a).exec t = .ok b u ∧
      (x >>= f).trace s = x.trace s ++ (f a).trace t := by
  cases hx : x.exec s with
  | ok a t => exact ⟨a, t, rfl, exec_bind_of_ok f hx ▸ h, trace_bind_of_ok f hx⟩
  | error e t =>
    rw [exec_bind_of_error f hx] at h
    cases h

/-- A computation after which a view of the state has a value has a result. -/
theorem exists_exec_of_view {x : Traced ε σ δ Unit} {view : σ → β} {b : β}
    (h : EStateM.run' (do x; return view (← get) : Traced ε σ δ β).exec s = some b) :
    ∃ t, x.exec s = .ok () t ∧ view t = b := by
  obtain ⟨_, h⟩ := exists_exec_of_run' h
  obtain ⟨_, t, hx, h, -⟩ := exec_bind_eq_ok h
  cases h
  exact ⟨_, hx, rfl⟩

/-- A computation for each of several things has a result only if each one has. -/
theorem exists_exec_of_forM {γ : Type} {f : γ → Traced ε σ δ PUnit} {l : List γ}
    {s u : σ} (h : (l.forM f).exec s = .ok ⟨⟩ u) :
    ∀ c ∈ l, ∃ s' t', (f c).exec s' = .ok ⟨⟩ t' := by
  induction l generalizing s with
  | nil => exact List.forall_mem_nil _
  | cons c rest ih =>
    obtain ⟨_, t, hc, hrest, -⟩ := exec_bind_eq_ok h
    exact List.forall_mem_cons.mpr ⟨⟨s, t, hc⟩, ih hrest⟩

/-- What a computation of two parts does includes what the first part does. -/
theorem trace_subset_bind (x : Traced ε σ δ α) (f : α → Traced ε σ δ β) (s : σ) :
    x.trace s ⊆ (x >>= f).trace s := by
  cases h : x.exec s with
  | ok a t =>
    rw [trace_bind_of_ok f h]
    exact List.subset_append_left _ _
  | error e t =>
    rw [trace_bind_of_error f h]
    exact List.Subset.refl _

theorem after_of_ok (h : x.exec s = .ok a t) : x.after s = t := by
  simp only [after, h]

theorem after_of_error (h : x.exec s = .error e t) : x.after s = t := by
  simp only [after, h]

theorem exists_exec_of_error?_eq_none (h : x.error? s = none) :
    ∃ a, x.exec s = .ok a (x.after s) := by
  unfold error? at h
  split at h
  · rename_i a t hexec
    rw [after_of_ok hexec]
    exact ⟨a, hexec⟩
  · cases h

theorem after_bind_of_ok (f : α → Traced ε σ δ β) (h : x.exec s = .ok a t) :
    (x >>= f).after s = (f a).after t := by
  simp only [after, exec_bind_of_ok f h]

theorem after_bind_of_error (f : α → Traced ε σ δ β) (h : x.exec s = .error e t) :
    (x >>= f).after s = x.after s := by
  simp only [after, exec_bind_of_error f h, h]

theorem states_bind_of_ok (f : α → Traced ε σ δ β) (h : x.exec s = .ok a t) :
    (x >>= f).states s = s :: (x.trace s).map (·.state) ++ ((f a).states t).tail := by
  simp [states, trace_bind_of_ok f h, after_bind_of_ok f h]

theorem states_bind_of_error (f : α → Traced ε σ δ β) (h : x.exec s = .error e t) :
    (x >>= f).states s = x.states s := by
  simp only [states, trace_bind_of_error f h, after_bind_of_error f h]

end Bind

@[simp]
theorem after_mapError (g : ε → ε) (x : Traced ε σ δ α) (s : σ) :
    (x.mapError g).after s = x.after s := by
  simp only [after, mapError]
  cases x.exec s <;> rfl

@[simp]
theorem states_mapError (g : ε → ε) (x : Traced ε σ δ α) (s : σ) :
    (x.mapError g).states s = x.states s := by
  simp only [states, after_mapError]
  rfl

@[simp]
theorem after_between (first last : Option δ) (enter leave : σ → σ) (x : Traced ε σ δ α) (s : σ) :
    (x.between first last enter leave).after s = leave (x.after (enter s)) := by
  simp only [after, between]
  cases x.exec (enter s) <;> rfl

theorem states_between (first last : Option δ) (enter leave : σ → σ) (x : Traced ε σ δ α)
    (s : σ) :
    (x.between first last enter leave).states s =
      s :: enter s :: (x.trace (enter s)).map (·.state) ++
        [leave (x.after (enter s)), leave (x.after (enter s))] := by
  simp only [states, after_between]
  simp [between]

/-! ## Deeds -/

/-- What a computation does on the way. -/
def deeds (x : Traced ε σ δ α) (s : σ) : List δ :=
  (x.trace s).filterMap (·.deed)

theorem deeds_pure (a : α) (s : σ) : (pure a : Traced ε σ δ α).deeds s = [] := rfl

theorem deeds_bind_of_ok {x : Traced ε σ δ α} {s t : σ} {a : α} (f : α → Traced ε σ δ β)
    (h : x.exec s = .ok a t) : (x >>= f).deeds s = x.deeds s ++ (f a).deeds t := by
  rw [deeds, trace_bind_of_ok f h, List.filterMap_append]
  rfl

theorem deeds_bind_of_error {x : Traced ε σ δ α} {s t : σ} {e : ε} (f : α → Traced ε σ δ β)
    (h : x.exec s = .error e t) : (x >>= f).deeds s = x.deeds s := by
  rw [deeds, trace_bind_of_error f h]
  rfl

theorem deeds_between (enter leave : σ → σ) (x : Traced ε σ δ α) (s : σ) :
    (x.between none none enter leave).deeds s = x.deeds (enter s) := by
  simp [deeds, between]

/-! ## The laws of a monad -/

@[ext]
theorem ext {x y : Traced ε σ δ α} (hexec : ∀ s, x.exec s = y.exec s)
    (htrace : ∀ s, x.trace s = y.trace s) : x = y := by
  cases x with
  | mk exec trace =>
    cases y with
    | mk exec' trace' =>
      obtain rfl : exec = exec' := funext hexec
      obtain rfl : trace = trace' := funext htrace
      rfl

theorem bind_pure_id (x : Traced ε σ δ α) : x >>= pure = x := by
  ext s
  · cases h : x.exec s with
    | ok a t => rw [exec_bind_of_ok _ h, exec_pure]
    | error e t => rw [exec_bind_of_error _ h]
  · cases h : x.exec s with
    | ok a t => rw [trace_bind_of_ok _ h, trace_pure, List.append_nil]
    | error e t => rw [trace_bind_of_error _ h]

theorem bind_assoc {γ : Type} (x : Traced ε σ δ α) (f : α → Traced ε σ δ β)
    (g : β → Traced ε σ δ γ) : (x >>= f) >>= g = x >>= fun a => f a >>= g := by
  ext s
  · cases h : x.exec s with
    | ok a t =>
      cases h' : (f a).exec t with
      | ok b u =>
        rw [exec_bind_of_ok g (exec_bind_of_ok f h ▸ h'), exec_bind_of_ok _ h,
          exec_bind_of_ok g h']
      | error e u =>
        rw [exec_bind_of_error g (exec_bind_of_ok f h ▸ h'), exec_bind_of_ok _ h,
          exec_bind_of_error g h']
    | error e t =>
      rw [exec_bind_of_error g (exec_bind_of_error f h), exec_bind_of_error _ h]
  · cases h : x.exec s with
    | ok a t =>
      cases h' : (f a).exec t with
      | ok b u =>
        rw [trace_bind_of_ok g (exec_bind_of_ok f h ▸ h'), trace_bind_of_ok f h,
          trace_bind_of_ok _ h, trace_bind_of_ok g h', List.append_assoc]
      | error e u =>
        rw [trace_bind_of_error g (exec_bind_of_ok f h ▸ h'), trace_bind_of_ok f h,
          trace_bind_of_ok _ h, trace_bind_of_error g h']
    | error e t =>
      rw [trace_bind_of_error g (exec_bind_of_error f h), trace_bind_of_error f h,
        trace_bind_of_error _ h]

instance : LawfulMonad (Traced ε σ δ) :=
  .mk' (Traced ε σ δ) bind_pure_id (fun _ _ => rfl) bind_assoc

/-! ## States -/

theorem mem_states_start (x : Traced ε σ δ α) (s : σ) : s ∈ x.states s := by
  simp [states]

theorem mem_states_after (x : Traced ε σ δ α) (s : σ) : x.after s ∈ x.states s := by
  simp [states]

theorem mem_states_of_mem_trace {x : Traced ε σ δ α} {s : σ} {moment : Moment δ σ}
    (h : moment ∈ x.trace s) : moment.state ∈ x.states s :=
  List.mem_append_left _ (List.mem_cons_of_mem _ (List.mem_map_of_mem h))

/-- A state of a computation of two parts is one of the first part, or of the second part after the
first had a result. -/
theorem mem_states_bind {x : Traced ε σ δ α} {f : α → Traced ε σ δ β} {s u : σ}
    (h : u ∈ (x >>= f).states s) :
    u ∈ x.states s ∨ ∃ a t, x.exec s = .ok a t ∧ u ∈ (f a).states t := by
  cases hx : x.exec s with
  | ok a t =>
    rw [states_bind_of_ok f hx, List.mem_append] at h
    rcases h with h | h
    · refine .inl ?_
      rw [states]
      exact List.mem_append_left _ h
    · exact .inr ⟨a, t, rfl, List.mem_of_mem_tail h⟩
  | error e t =>
    rw [states_bind_of_error f hx] at h
    exact .inl h

/-- A state of a computation between two changes is one outside the changes or one of the
computation. -/
theorem mem_states_between {first last : Option δ} {enter leave : σ → σ} {x : Traced ε σ δ α}
    {s u : σ} (h : u ∈ (x.between first last enter leave).states s) :
    u = s ∨ u = leave (x.after (enter s)) ∨ u ∈ x.states (enter s) := by
  rw [states_between] at h
  simp only [List.cons_append, List.mem_cons, List.mem_append, List.not_mem_nil, or_false,
    or_self] at h
  rw [states, List.mem_append, List.mem_cons]
  tauto

/-! ## Invariants and relations along the states -/

/-- Two ordered lists, of which the one ends where the other begins, are ordered one after the
other. -/
theorem pairwise_append_of_meet {R : σ → σ → Prop} (trans : ∀ ⦃a b c⦄, R a b → R b c → R a c)
    {before after : List σ} {t : σ} (h₁ : (before ++ [t]).Pairwise R)
    (h₂ : (t :: after).Pairwise R) : (before ++ after).Pairwise R := by
  rw [List.pairwise_append] at h₁ ⊢
  rw [List.pairwise_cons] at h₂
  refine ⟨h₁.1, h₂.2, fun a ha b hb => ?_⟩
  exact trans (h₁.2.2 a ha t (List.mem_singleton_self t)) (h₂.1 b hb)

/-- Of a computation that begins where `I` holds, `I` holds in all states, and each state is
related to all later ones. -/
def Evolves (I : σ → Prop) (R : σ → σ → Prop) (x : Traced ε σ δ α) : Prop :=
  ∀ s, I s → (∀ t ∈ x.states s, I t) ∧ (x.states s).Pairwise R

section Evolves

variable {I : σ → Prop} {R : σ → σ → Prop}

/-- The only states of a computation that changes nothing are the first and the last. -/
theorem evolves_of_still {x : Traced ε σ δ α} (refl : ∀ s, R s s)
    (h : ∀ s, x.trace s = [] ∧ x.after s = s) : Evolves I R x := by
  intro s hs
  have hstates : x.states s = [s, s] := by
    simp [states, (h s).1, (h s).2]
  rw [hstates]
  simp [hs, refl]

theorem evolves_bind {x : Traced ε σ δ α} {f : α → Traced ε σ δ β}
    (trans : ∀ ⦃a b c⦄, R a b → R b c → R a c) (hx : Evolves I R x)
    (hf : ∀ a, Evolves I R (f a)) : Evolves I R (x >>= f) := by
  intro s hs
  cases h : x.exec s with
  | error e t =>
    rw [states_bind_of_error f h]
    exact hx s hs
  | ok a t =>
    have ht : x.after s = t := after_of_ok h
    obtain ⟨hIx, hRx⟩ := hx s hs
    obtain ⟨hIf, hRf⟩ := hf a t (hIx t (ht ▸ mem_states_after x s))
    constructor
    · intro u hu
      rcases mem_states_bind hu with hu | ⟨b, v, hb, hu⟩
      · exact hIx u hu
      · rw [h] at hb
        cases hb
        exact hIf u hu
    · rw [states_bind_of_ok f h]
      rw [states, ht] at hRx
      exact pairwise_append_of_meet trans hRx hRf

/-- A computation that goes on after it was stopped. -/
theorem evolves_tryCatch {x : Traced ε σ δ α} {handle : ε → Traced ε σ δ α}
    (trans : ∀ ⦃a b c⦄, R a b → R b c → R a c) (hx : Evolves I R x)
    (hhandle : ∀ e, Evolves I R (handle e)) : Evolves I R (tryCatch x handle) := by
  intro s hs
  obtain ⟨hIx, hRx⟩ := hx s hs
  cases h : x.exec s with
  | ok a t =>
    have hstates : (tryCatch x handle : Traced ε σ δ α).states s = x.states s := by
      change (Traced.tryCatch x handle).states s = x.states s
      simp [states, after, Traced.tryCatch, h]
    rw [hstates]
    exact ⟨hIx, hRx⟩
  | error e t =>
    have ht : x.after s = t := after_of_error h
    obtain ⟨hIh, hRh⟩ := hhandle e t (hIx t (ht ▸ mem_states_after x s))
    have hstates : (tryCatch x handle : Traced ε σ δ α).states s =
        s :: (x.trace s).map (·.state) ++ ((handle e).states t).tail := by
      change (Traced.tryCatch x handle).states s = _
      simp [states, after, Traced.tryCatch, h]
    rw [hstates]
    rw [states, ht] at hRx
    refine ⟨fun u hu => ?_, pairwise_append_of_meet trans hRx hRh⟩
    rcases List.mem_append.mp hu with hu | hu
    · exact hIx u (by rw [states]; exact List.mem_append_left _ hu)
    · exact hIh u (List.mem_of_mem_tail hu)

/-- One change of the state. -/
theorem evolves_of_change {x : Traced ε σ δ α} {g : σ → σ} (refl : ∀ s, R s s)
    (hx : ∀ s, (x.trace s).map (·.state) = [g s] ∧ x.after s = g s)
    (hg : ∀ s, I s → I (g s) ∧ R s (g s)) : Evolves I R x := by
  intro s hs
  have hstates : x.states s = [s, g s, g s] := by
    simp [states, (hx s).1, (hx s).2]
  rw [hstates]
  simp [hs, hg s hs, refl]

theorem evolves_mapError {x : Traced ε σ δ α} (g : ε → ε) (hx : Evolves I R x) :
    Evolves I R (x.mapError g) := by
  intro s hs
  rw [states_mapError]
  exact hx s hs

/-- A computation between two changes of the state; the second change is made at the end of the
computation only. -/
theorem evolves_between {x : Traced ε σ δ α} {first last : Option δ} {enter leave : σ → σ}
    (refl : ∀ s, R s s) (trans : ∀ ⦃a b c⦄, R a b → R b c → R a c) (hx : Evolves I R x) {s : σ}
    (hs : I s) (henter : I (enter s) ∧ R s (enter s))
    (hleave : I (x.after (enter s)) →
      I (leave (x.after (enter s))) ∧ R (x.after (enter s)) (leave (x.after (enter s)))) :
    (∀ t ∈ (x.between first last enter leave).states s, I t) ∧
      ((x.between first last enter leave).states s).Pairwise R := by
  obtain ⟨hI, hR⟩ := henter
  obtain ⟨hIx, hRx⟩ := hx (enter s) hI
  obtain ⟨hIl, hRl⟩ := hleave (hIx _ (mem_states_after x _))
  constructor
  · intro u hu
    rcases mem_states_between hu with rfl | rfl | hu
    · exact hs
    · exact hIl
    · exact hIx u hu
  · rw [states_between]
    have hbody : (s :: (enter s :: (x.trace (enter s)).map (·.state) ++
        [x.after (enter s)])).Pairwise R := by
      rw [← states, List.pairwise_cons]
      refine ⟨fun u hu => trans hR ?_, hRx⟩
      rw [states, List.cons_append, List.mem_cons] at hu
      rw [states, List.cons_append, List.pairwise_cons] at hRx
      rcases hu with rfl | hu
      · exact refl _
      · exact hRx.1 u hu
    refine pairwise_append_of_meet trans hbody ?_
    simp [hRl, refl]

end Evolves

/-- Of a computation that begins where `I` holds, `I` holds in all states. -/
def Preserves (I : σ → Prop) (x : Traced ε σ δ α) : Prop :=
  ∀ s, I s → ∀ t ∈ x.states s, I t

section Preserves

variable {I : σ → Prop}

theorem preserves_of_still {x : Traced ε σ δ α} (h : ∀ s, x.trace s = [] ∧ x.after s = s) :
    Preserves I x := by
  intro s hs t ht
  simp only [states, (h s).1, (h s).2, List.map_nil, List.cons_append, List.nil_append,
    List.mem_cons, List.not_mem_nil, or_false, or_self] at ht
  exact ht ▸ hs

theorem preserves_of_change {x : Traced ε σ δ α} {g : σ → σ}
    (hx : ∀ s, (x.trace s).map (·.state) = [g s] ∧ x.after s = g s)
    (hg : ∀ s, I s → I (g s)) : Preserves I x := by
  intro s hs t ht
  simp only [states, (hx s).1, (hx s).2, List.cons_append, List.nil_append, List.mem_cons,
    List.not_mem_nil, or_false, or_self] at ht
  rcases ht with rfl | rfl
  · exact hs
  · exact hg s hs

/-- The second of two computations begins where the first one has a result. -/
theorem Preserves.bind_of_ok {x : Traced ε σ δ α} {f : α → Traced ε σ δ β} (hx : Preserves I x)
    (hf : ∀ s a t, x.exec s = .ok a t → Preserves I (f a)) : Preserves I (x >>= f) := by
  intro s hs u hu
  rcases mem_states_bind hu with hu | ⟨a, t, hexec, hu⟩
  · exact hx s hs u hu
  · refine hf s a t hexec t (hx s hs t ?_) u hu
    rw [← after_of_ok hexec]
    exact mem_states_after x s

theorem Preserves.bind {x : Traced ε σ δ α} {f : α → Traced ε σ δ β} (hx : Preserves I x)
    (hf : ∀ a, Preserves I (f a)) : Preserves I (x >>= f) :=
  hx.bind_of_ok fun _ a _ _ => hf a

theorem Preserves.mapError {x : Traced ε σ δ α} (hx : Preserves I x) (g : ε → ε) :
    Preserves I (x.mapError g) := by
  intro s hs
  rw [states_mapError]
  exact hx s hs

theorem Preserves.between {x : Traced ε σ δ α} {first last : Option δ} {enter leave : σ → σ}
    (hx : Preserves I x) (henter : ∀ s, I s → I (enter s)) (hleave : ∀ s, I s → I (leave s)) :
    Preserves I (x.between first last enter leave) := by
  intro s hs u hu
  rcases mem_states_between hu with rfl | rfl | hu
  · exact hs
  · exact hleave _ (hx _ (henter s hs) _ (mem_states_after x _))
  · exact hx _ (henter s hs) u hu

end Preserves

/-! ## What is true after a computation -/

/-- If a computation has a result, and all that it does satisfies `D`, then the result and the state
at the end satisfy `Q`. -/
def Yields (D : δ → Prop) (x : Traced ε σ δ α) (s : σ) (Q : α → σ → Prop) : Prop :=
  ∀ a t, x.exec s = .ok a t → (∀ moment ∈ x.trace s, ∀ deed ∈ moment.deed, D deed) → Q a t

section Yields

variable {D : δ → Prop} {s : σ}

theorem yields_pure {a : α} {Q : α → σ → Prop} (h : Q a s) :
    Yields D (pure a : Traced ε σ δ α) s Q := by
  rintro b t ⟨⟩ -
  exact h

theorem yields_throw {e : ε} {Q : α → σ → Prop} :
    Yields D (throw e : Traced ε σ δ α) s Q := by
  rintro b t ⟨⟩

theorem yields_get {Q : σ → σ → Prop} (h : Q s s) :
    Yields D (get : Traced ε σ δ σ) s Q := by
  rintro b t ⟨⟩ -
  exact h

theorem yields_modify {f : σ → σ} {Q : PUnit → σ → Prop} (h : Q () (f s)) :
    Yields D (modify f : Traced ε σ δ PUnit) s Q := by
  rintro b t ⟨⟩ -
  exact h

theorem yields_note {deed : δ} {Q : Unit → σ → Prop} (h : D deed → Q () s) :
    Yields D (note deed : Traced ε σ δ Unit) s Q := by
  rintro b t ⟨⟩ hD
  exact h (hD ⟨some deed, s⟩ (List.mem_singleton_self _) deed rfl)

theorem Yields.bind {x : Traced ε σ δ α} {f : α → Traced ε σ δ β} {P : α → σ → Prop}
    {Q : β → σ → Prop} (hx : Yields D x s P) (hf : ∀ a t, P a t → Yields D (f a) t Q) :
    Yields D (x >>= f) s Q := by
  intro b u hexec hD
  obtain ⟨a, t, hxt, hfu, htrace⟩ := exec_bind_eq_ok hexec
  rw [htrace] at hD
  refine hf a t (hx a t hxt ?_) b u hfu ?_
  · exact fun moment hmoment => hD moment (List.mem_append_left _ hmoment)
  · exact fun moment hmoment => hD moment (List.mem_append_right _ hmoment)

theorem Yields.imp {x : Traced ε σ δ α} {P Q : α → σ → Prop} (hx : Yields D x s P)
    (h : ∀ a t, P a t → Q a t) : Yields D x s Q :=
  fun a t hexec hD => h a t (hx a t hexec hD)

end Yields

end MiniC.Traced
