import MiniC.Proofs.Arena
import MiniC.Proofs.Composed

set_option autoImplicit false

/-! # Scopes are left as they were found

However a statement, an expression or a call ends, the scopes that were open before it are open
after it, and what the scopes owned that came and went in between is freed. This is the shape of
every run between a state and the one at its end: in between there are only more scopes on top. -/

namespace MiniC

namespace Machine

/-- Whether the scope with the number `k` owns the buffer with the handle `h`. -/
def Owns (m : Machine) (k h : Nat) : Prop :=
  ∃ frame, m.frames[k]? = some frame ∧ h ∈ frame.owned

/-- Whether a variable is in one of the scopes. -/
def Binds (m : Machine) (b : Binding) : Prop :=
  ∃ (k : Nat) (frame : Frame) (id : Nat), m.frames[k]? = some frame ∧ (id, b) ∈ frame.bindings

theorem Owns.lt_size {m : Machine} {k h : Nat} (howns : m.Owns k h) : k < m.frames.size := by
  obtain ⟨frame, hframe, -⟩ := howns
  exact (Array.getElem?_eq_some_iff.mp hframe).1

theorem owns_congr {m m' : Machine} {k : Nat} (hframes : m'.frames[k]? = m.frames[k]?) (h : Nat) :
    m'.Owns k h ↔ m.Owns k h := by
  rw [Owns, Owns, hframes]

/-- Whether a state is one after another one, where scopes are concerned: the same scopes are open,
and only in the current one anything may have changed. -/
structure Within (m m' : Machine) : Prop where
  depth : m'.depth = m.depth
  current : m'.current = m.current
  size : m'.frames.size = m.frames.size
  parents : ∀ k : Nat, m'.frames[k]?.map (·.parent) = m.frames[k]?.map (·.parent)
  outside : ∀ k : Nat, k ≠ m.current → m'.frames[k]? = m.frames[k]?

/-- What is true of every state `s` between two others, where scopes are concerned. -/
structure Passes (m s m' : Machine) : Prop where
  size : m.frames.size ≤ s.frames.size
  standing : m.current < m.frames.size → s.current < s.frames.size
  next : m.arena.next ≤ s.arena.next
  issued : ∀ k h, s.Owns k h → m.Owns k h ∨ 0 < h ∧ h < s.arena.next
  kept : ∀ k h, k < m.frames.size → s.Owns k h → m'.Owns k h
  popped : ∀ k h, m.frames.size ≤ k → s.Owns k h → m'.arena.Freed h
  freed : ∀ h, s.arena.Freed h → m'.arena.Freed h

theorem Within.refl (m : Machine) : m.Within m :=
  ⟨rfl, rfl, rfl, fun _ => rfl, fun _ _ => rfl⟩

theorem Within.trans {m t u : Machine} (h₁ : m.Within t) (h₂ : t.Within u) : m.Within u where
  depth := h₂.depth.trans h₁.depth
  current := h₂.current.trans h₁.current
  size := h₂.size.trans h₁.size
  parents k := (h₂.parents k).trans (h₁.parents k)
  outside k hk := by
    rw [h₂.outside k (h₁.current ▸ hk), h₁.outside k hk]

/-- A state before a further run is a state before it and after it. -/
theorem Passes.before {m s t u : Machine} (h₁ : m.Passes s t) (ht : m.Within t)
    (h₂ : t.Passes t u) : m.Passes s u where
  size := h₁.size
  standing := h₁.standing
  next := h₁.next
  issued := h₁.issued
  kept k h hk howns := h₂.kept k h (ht.size ▸ hk) (h₁.kept k h hk howns)
  popped k h hk howns := h₂.freed h (h₁.popped k h hk howns)
  freed h hfreed := h₂.freed h (h₁.freed h hfreed)

/-- A state in a further run is a state after what was before. -/
theorem Passes.after {m s t u : Machine} (h₁ : m.Passes t t) (ht : m.Within t)
    (h₂ : t.Passes s u) : m.Passes s u where
  size := ht.size ▸ h₂.size
  standing hm := h₂.standing (by rw [ht.current, ht.size]; exact hm)
  next := Nat.le_trans h₁.next h₂.next
  issued k h howns := by
    rcases h₂.issued k h howns with howns | hissued
    · rcases h₁.issued k h howns with howns | ⟨hpos, hlt⟩
      · exact .inl howns
      · exact .inr ⟨hpos, Nat.lt_of_lt_of_le hlt h₂.next⟩
    · exact .inr hissued
  kept k h hk howns := h₂.kept k h (ht.size ▸ hk) howns
  popped k h hk howns := h₂.popped k h (ht.size ▸ hk) howns
  freed := h₂.freed

/-- What is true of one change that opens and closes no scope. -/
structure Step (m m' : Machine) : Prop extends Within m m' where
  next : m.arena.next ≤ m'.arena.next
  issued : ∀ k h, m'.Owns k h → m.Owns k h ∨ 0 < h ∧ h < m'.arena.next
  kept : ∀ k h, m.Owns k h → m'.Owns k h
  freed : ∀ h, m.arena.Freed h → m'.arena.Freed h

theorem Step.passes_start {m m' : Machine} (h : m.Step m') : m.Passes m m' where
  size := Nat.le_refl _
  standing := id
  next := Nat.le_refl _
  issued _ _ := .inl
  kept k h' _ := h.kept k h'
  popped _ _ hk howns := absurd howns.lt_size (Nat.not_lt_of_le hk)
  freed := h.freed

theorem Step.passes_end {m m' : Machine} (h : m.Step m') : m.Passes m' m' where
  size := Nat.le_of_eq h.size.symm
  standing hm := by rw [h.current, h.size]; exact hm
  next := h.next
  issued := h.issued
  kept _ _ _ := id
  popped _ _ hk howns := absurd howns.lt_size (by rw [h.size]; exact Nat.not_lt_of_le hk)
  freed _ := id

theorem Step.refl (m : Machine) : m.Step m :=
  { Within.refl m with
    next := Nat.le_refl _
    issued := fun _ _ => .inl
    kept := fun _ _ => id
    freed := fun _ => id }

/-- A change that leaves the scopes alone, and frees nothing. -/
theorem Step.of_frames {m m' : Machine} (hframes : m'.frames = m.frames)
    (hcurrent : m'.current = m.current) (hdepth : m'.depth = m.depth)
    (hnext : m.arena.next ≤ m'.arena.next)
    (hfreed : ∀ h, m.arena.Freed h → m'.arena.Freed h) : m.Step m' where
  depth := hdepth
  current := hcurrent
  size := by rw [hframes]
  parents _ := by rw [hframes]
  outside _ _ := by rw [hframes]
  next := hnext
  issued k h howns := .inl ((owns_congr (by rw [hframes]) h).mp howns)
  kept k h howns := (owns_congr (by rw [hframes]) h).mpr howns
  freed := hfreed

/-! ## Buffers and variables of the current scope -/

theorem frames_own (m : Machine) (values : Array Value) :
    (m.own values).2.frames = m.frames.modify m.current (·.own m.arena.next) := rfl

theorem arena_own (m : Machine) (values : Array Value) :
    (m.own values).2.arena = (m.arena.alloc values).2 := rfl

theorem frames_bind (m : Machine) (id : Nat) (t : CType) (v : Value) :
    (m.bind id t v).frames =
      (m.own #[v]).2.frames.modify m.current (·.bind id ⟨m.arena.next, t⟩) := rfl

theorem arena_bind (m : Machine) (id : Nat) (t : CType) (v : Value) :
    (m.bind id t v).arena = (m.arena.alloc #[v]).2 := rfl

/-- What a scope owns after the current scope got one more buffer. -/
theorem owns_own {m : Machine} {values : Array Value} {k h : Nat} :
    (m.own values).2.Owns k h ↔
      m.Owns k h ∨ k = m.current ∧ k < m.frames.size ∧ h = m.arena.next := by
  rw [Owns, frames_own, Owns]
  simp only [Array.getElem?_modify]
  by_cases hk : m.current = k
  · subst hk
    cases hframe : m.frames[m.current]? with
    | none =>
      have := Array.getElem?_eq_none_iff.mp hframe
      simp [Nat.not_lt_of_le this]
    | some frame =>
      have hlt := (Array.getElem?_eq_some_iff.mp hframe).1
      simp [Frame.own, hlt]
  · simp [hk, Ne.symm hk]

theorem owns_bind {m : Machine} {id k h : Nat} {t : CType} {v : Value} :
    (m.bind id t v).Owns k h ↔ (m.own #[v]).2.Owns k h := by
  rw [Owns, frames_bind, Owns]
  simp only [Array.getElem?_modify]
  split
  · cases (m.own #[v]).2.frames[k]? <;> simp [Frame.bind]
  · rfl

theorem step_own (m : Machine) (values : Array Value) : m.Step (m.own values).2 where
  depth := rfl
  current := rfl
  size := by rw [frames_own, Array.size_modify]
  parents k := by
    rw [frames_own, Array.getElem?_modify]
    split
    · cases m.frames[k]? <;> rfl
    · rfl
  outside k hk := by rw [frames_own, Array.getElem?_modify, if_neg (Ne.symm hk)]
  next := by rw [arena_own, Arena.next_alloc]; exact Nat.le_succ _
  issued k h howns := by
    rcases owns_own.mp howns with howns | ⟨-, -, rfl⟩
    · exact .inl howns
    · refine .inr ⟨Nat.succ_pos _, ?_⟩
      rw [arena_own, Arena.next_alloc]
      exact Nat.lt_succ_self _
  kept k h howns := owns_own.mpr (.inl howns)
  freed h hfreed := hfreed.alloc values

theorem step_bind (m : Machine) (id : Nat) (t : CType) (v : Value) : m.Step (m.bind id t v) where
  depth := rfl
  current := rfl
  size := by rw [frames_bind, Array.size_modify, (m.step_own #[v]).size]
  parents k := by
    rw [← (m.step_own #[v]).parents k, frames_bind, Array.getElem?_modify]
    split
    · cases (m.own #[v]).2.frames[k]? <;> rfl
    · rfl
  outside k hk := by
    rw [frames_bind, Array.getElem?_modify, if_neg (Ne.symm hk), (m.step_own #[v]).outside k hk]
  next := (m.step_own #[v]).next
  issued k h howns := (m.step_own #[v]).issued k h (owns_bind.mp howns)
  kept k h howns := owns_bind.mpr ((m.step_own #[v]).kept k h howns)
  freed := (m.step_own #[v]).freed

/-! ## Opening and leaving a scope -/

theorem pop_eq {m : Machine} {frame : Frame} (h : m.frames.back? = some frame) :
    m.pop = { m with
      arena := m.arena.freeAll frame.owned
      frames := m.frames.pop
      current := frame.parent.getD globalScope } := by
  rw [pop, h]
  rfl

/-- Whether a state is one after another one by the opening of a scope. -/
structure Opens (m e : Machine) : Prop where
  frames : ∃ parent, e.frames = m.frames.push (.opened (some parent))
  current : e.current = m.frames.size
  arena : e.arena = m.arena

theorem Opens.size {m e : Machine} (h : m.Opens e) : e.frames.size = m.frames.size + 1 := by
  obtain ⟨parent, hframes⟩ := h.frames
  rw [hframes, Array.size_push]

/-- A scope that was just opened owns nothing. -/
theorem Opens.owns {m e : Machine} (h : m.Opens e) {k handle : Nat} (howns : e.Owns k handle) :
    m.Owns k handle := by
  obtain ⟨parent, hframes⟩ := h.frames
  obtain ⟨frame, hframe, hmem⟩ := howns
  rw [hframes, Array.getElem?_push] at hframe
  split at hframe
  · cases hframe
    exact absurd hmem (Array.not_mem_empty _)
  · exact ⟨frame, hframe, hmem⟩

/-- After a run in a new scope, the scopes below that one are as they were, and leaving it leaves
just these. -/
theorem Opens.pop {m e t : Machine} (h : m.Opens e) (hw : e.Within t) :
    t.pop.frames = m.frames ∧ ∃ top, t.frames[m.frames.size]? = some top ∧
      t.frames.back? = some top := by
  obtain ⟨parent, hframes⟩ := h.frames
  have hsize : t.frames.size = m.frames.size + 1 := hw.size.trans h.size
  have htop : ∃ top, t.frames[m.frames.size]? = some top := by
    exact ⟨_, Array.getElem?_eq_getElem (by rw [hsize]; exact Nat.lt_succ_self _)⟩
  obtain ⟨top, htop⟩ := htop
  have hback : t.frames.back? = some top := by
    rw [Array.back?_eq_getElem?, hsize]
    exact htop
  refine ⟨?_, top, htop, hback⟩
  rw [pop_eq hback]
  apply Array.ext_getElem?
  intro k
  rw [Array.getElem?_pop, hsize]
  by_cases hk : k < m.frames.size
  · have hne : k ≠ e.current := by rw [h.current]; exact Nat.ne_of_lt hk
    rw [if_pos (by omega), hw.outside k hne, hframes, Array.getElem?_push,
      if_neg (Nat.ne_of_lt hk)]
  · rw [if_neg (by omega), Array.getElem?_eq_none (Nat.le_of_not_lt hk)]

end Machine

/-! ## Runs between two states -/

namespace Run

open Machine

variable {α β : Type}

/-- A run that leaves the scopes as it found them, on whatever way it ends. -/
def Bracketed (x : Run α) : Prop :=
  ∀ m, m.Within (x.after m) ∧ ∀ s ∈ x.states m, m.Passes s (x.after m)

/-- A run that makes one step, or just does something. -/
theorem bracketed_of_step {x : Run α} {g : Machine → Machine}
    (hx : ∀ m, (x.trace m).map (·.state) = [g m] ∧ x.after m = g m)
    (hg : ∀ m : Machine, m.Step (g m)) :
    Bracketed x := by
  intro m
  rw [(hx m).2]
  refine ⟨(hg m).toWithin, fun s hs => ?_⟩
  rw [Traced.states, (hx m).1, (hx m).2] at hs
  simp only [List.cons_append, List.nil_append, List.mem_cons, List.not_mem_nil, or_false,
    or_self] at hs
  rcases hs with rfl | rfl
  · exact (hg s).passes_start
  · exact (hg m).passes_end

/-- A run in which nothing happens. -/
theorem bracketed_of_still {x : Run α} (hx : ∀ m, x.trace m = [] ∧ x.after m = m) :
    Bracketed x := by
  intro m
  rw [(hx m).2]
  refine ⟨.refl m, fun s hs => ?_⟩
  rw [Traced.states, (hx m).1, (hx m).2] at hs
  simp only [List.map_nil, List.cons_append, List.nil_append, List.mem_cons, List.not_mem_nil,
    or_false, or_self] at hs
  subst hs
  exact (Step.refl s).passes_start

theorem bracketed_bind {x : Run α} {f : α → Run β} (hx : Bracketed x)
    (hf : ∀ a, Bracketed (f a)) : Bracketed (x >>= f) := by
  intro m
  obtain ⟨hwx, hpx⟩ := hx m
  cases h : x.exec m with
  | error e t =>
    rw [Traced.after_bind_of_error f h, Traced.states_bind_of_error f h]
    exact ⟨hwx, hpx⟩
  | ok a t =>
    obtain rfl : x.after m = t := Traced.after_of_ok h
    obtain ⟨hwf, hpf⟩ := hf a (x.after m)
    rw [Traced.after_bind_of_ok f h]
    refine ⟨hwx.trans hwf, fun s hs => ?_⟩
    rcases Traced.mem_states_bind hs with hs | ⟨b, u, hb, hs⟩
    · exact (hpx s hs).before hwx (hpf _ (Traced.mem_states_start _ _))
    · rw [h] at hb
      cases hb
      exact (hpx _ (Traced.mem_states_after x m)).after hwx (hpf s hs)

theorem bracketed_get : Bracketed (get : Run Machine) :=
  bracketed_of_still fun _ => ⟨rfl, rfl⟩

/-- A run in a scope of its own, which is opened before it and left after it. -/
theorem bracketed_between {x : Run α} (hx : Bracketed x) {first last : Option Deed}
    {enter leave : Machine → Machine} {m : Machine} (henter : m.Opens (enter m))
    (hleave : ∀ t, (enter m).Within t → (leave t).frames = t.pop.frames ∧
      (leave t).arena = t.pop.arena ∧ (leave t).current = m.current ∧
      (leave t).depth = m.depth) :
    (((x.between first last enter leave).after m).frames = m.frames) ∧
    m.Within ((x.between first last enter leave).after m) ∧
    ∀ s ∈ (x.between first last enter leave).states m,
      m.Passes s ((x.between first last enter leave).after m) := by
  obtain ⟨hw, hp⟩ := hx (enter m)
  have hstart := hp _ (Traced.mem_states_start x _)
  have hend := hp _ (Traced.mem_states_after x _)
  rw [Traced.after_between]
  generalize ht : x.after (enter m) = t at hw hp hstart hend ⊢
  obtain ⟨hpop, harena, hcurrent, hdepth⟩ := hleave t hw
  obtain ⟨hframes, top, htop, hback⟩ := henter.pop hw
  rw [hframes] at hpop
  rw [pop_eq hback] at harena
  have hsame : ∀ k h, (leave t).Owns k h ↔ m.Owns k h := fun k h => owns_congr (by rw [hpop]) h
  have hfreed : ∀ h, t.arena.Freed h → (leave t).arena.Freed h := by
    intro h hf
    rw [harena]
    exact hf.freeAll top.owned
  have hnext : m.arena.next ≤ (leave t).arena.next := by
    rw [harena, Arena.next_freeAll, ← henter.arena]
    exact hend.next
  -- Opening, running and leaving together are one step that stays within the scopes from before.
  have hstep : m.Step (leave t) := by
    refine ⟨⟨hdepth, hcurrent, ?_, ?_, ?_⟩, hnext, ?_, ?_, ?_⟩
    · rw [hpop]
    · intro k
      rw [hpop]
    · intro k _
      rw [hpop]
    · exact fun k h howns => .inl ((hsame k h).mp howns)
    · exact fun k h howns => (hsame k h).mpr howns
    · exact fun h hf => hfreed h (hstart.freed h (henter.arena ▸ hf))
  refine ⟨hpop, hstep.toWithin, fun s hs => ?_⟩
  rcases Traced.mem_states_between hs with rfl | rfl | hs
  · exact hstep.passes_start
  · rw [ht]
    exact hstep.passes_end
  · have hs := hp s hs
    refine ⟨?_, ?_, ?_, ?_, ?_, ?_, ?_⟩
    · exact Nat.le_trans (by rw [henter.size]; exact Nat.le_succ _) hs.size
    · intro _
      apply hs.standing
      rw [henter.current, henter.size]
      exact Nat.lt_succ_self _
    · exact henter.arena ▸ hs.next
    · intro k h howns
      exact (hs.issued k h howns).imp_left henter.owns
    · intro k h hk howns
      have hlt : k < (enter m).frames.size := by rw [henter.size]; exact Nat.lt_succ_of_lt hk
      have hne : k ≠ (enter m).current := by rw [henter.current]; exact Nat.ne_of_lt hk
      rw [hsame]
      exact henter.owns ((owns_congr (hw.outside k hne) h).mp (hs.kept k h hlt howns))
    · intro k h hk howns
      rcases Nat.lt_or_eq_of_le hk with hk | rfl
      · exact hfreed h (hs.popped k h (by rw [henter.size]; exact hk) howns)
      · -- the scope that is left: what it owns at the end is freed with it
        have hlt : m.frames.size < (enter m).frames.size := by
          rw [henter.size]
          exact Nat.lt_succ_self _
        have howns' := hs.kept _ h hlt howns
        have hissued : 0 < h ∧ h < t.arena.next := by
          rcases hend.issued _ h howns' with howns' | hissued
          · exact absurd (henter.owns howns').lt_size (Nat.lt_irrefl _)
          · exact hissued
        obtain ⟨frame, hframe, hmem⟩ := howns'
        rw [htop] at hframe
        cases hframe
        refine ⟨hissued.1, ?_, ?_⟩
        · rw [harena, Arena.next_freeAll]
          exact hissued.2
        · rw [harena, Arena.buffer?_freeAll, if_pos hmem]
    · exact fun h hf => hfreed h (hs.freed h hf)

/-! ## All runs -/

theorem opens_push (m : Machine) (parent : Nat) : m.Opens (m.push parent) :=
  ⟨⟨parent, rfl⟩, rfl, rfl⟩

theorem opens_enterCall (m : Machine) (name : String) : m.Opens (m.enterCall name) :=
  ⟨⟨globalScope, rfl⟩, rfl, rfl⟩

theorem leave_push {m t : Machine} (hw : (m.push m.current).Within t) :
    t.pop.current = m.current ∧ t.pop.depth = m.depth := by
  have htop : t.frames.back?.map (·.parent) = some (some m.current) := by
    rw [Array.back?_eq_getElem?, hw.size, hw.parents]
    simp [push, Frame.opened]
  rw [Option.map_eq_some_iff] at htop
  obtain ⟨frame, hback, hparent⟩ := htop
  rw [pop_eq hback]
  exact ⟨by rw [hparent]; rfl, hw.depth⟩

theorem depth_pop (m : Machine) : m.pop.depth = m.depth := by
  unfold pop
  split <;> rfl

theorem strings_pop (m : Machine) : m.pop.strings = m.strings := by
  unfold pop
  split <;> rfl

theorem functions_pop (m : Machine) : m.pop.functions = m.functions := by
  unfold pop
  split <;> rfl

theorem after_inCall (name : String) (x : Run α) (m : Machine) :
    (inCall name x).after m = (x.between (some .call) (some .return) (·.enterCall name)
      (·.leaveCall m.current)).after m := rfl

theorem states_inCall (name : String) (x : Run α) (m : Machine) :
    (inCall name x).states m = (x.between (some .call) (some .return) (·.enterCall name)
      (·.leaveCall m.current)).states m := rfl

theorem bracketed_throw (stop : Stop) : Bracketed (throw stop : Run α) :=
  bracketed_of_still fun _ => ⟨rfl, rfl⟩

/-- All runs leave the scopes as they found them. -/
theorem composed_bracketed : Declaring @Bracketed where
  pure _ := bracketed_of_still fun _ => ⟨rfl, rfl⟩
  stop _ _ := bracketed_throw _
  anyStop stop _ _ := bracketed_throw stop
  missingLabel _ _ := bracketed_throw _
  observe _ hf := bracketed_bind bracketed_get fun m => hf m fun _ => bracketed_throw _
  observeName _ _ _ hf := bracketed_bind bracketed_get hf
  bind := bracketed_bind
  alloc values := bracketed_of_step (fun _ => ⟨rfl, rfl⟩) fun m =>
    .of_frames rfl rfl rfl (Nat.le_of_lt (by simp [Machine.alloc])) fun _ h => h.alloc values
  keepString slot values := bracketed_of_step (fun _ => ⟨rfl, rfl⟩) fun m =>
    .of_frames rfl rfl rfl (Nat.le_of_lt (by simp [keepString, Machine.alloc]))
      fun _ h => h.alloc values
  put p v := bracketed_of_step (fun _ => ⟨rfl, rfl⟩) fun m =>
    .of_frames rfl rfl rfl (Nat.le_of_eq (Arena.next_put m.arena p v).symm) fun _ h => h.put p v
  beside f hf _ := bracketed_of_step (fun _ => ⟨rfl, rfl⟩) fun m => by
    obtain ⟨records, output, events, -, h⟩ := hf m
    rw [h]
    exact .of_frames rfl rfl rfl (Nat.le_refl _) fun _ => id
  declares f := bracketed_of_step (fun _ => ⟨rfl, rfl⟩) fun _ =>
    .of_frames rfl rfl rfl (Nat.le_refl _) fun _ => id
  register f hf _ := bracketed_of_step (fun _ => ⟨rfl, rfl⟩) fun m => by
    obtain ⟨functions, prototypes, h⟩ := hf m
    change m.Step (f m)
    rw [h]
    exact .of_frames rfl rfl rfl (Nat.le_refl _) fun _ => id
  own values := bracketed_of_step (fun _ => ⟨rfl, rfl⟩) fun m => m.step_own values
  bindName id t v := bracketed_of_step (fun _ => ⟨rfl, rfl⟩) fun m => m.step_bind id t v
  introduce _ t v := bracketed_bind (bracketed_of_step (fun _ => ⟨rfl, rfl⟩) fun m =>
    m.step_bind _ t v) fun _ => bracketed_of_step (fun _ => ⟨rfl, rfl⟩) Step.refl
  use _ := bracketed_of_step (fun _ => ⟨rfl, rfl⟩) Step.refl
  located pos hx := fun m => by
    unfold located
    rw [Traced.after_mapError, Traced.states_mapError]
    exact hx m
  inScope hx := fun m => by
    refine (bracketed_between hx (opens_push m m.current) fun t hw => ?_).2
    exact ⟨rfl, rfl, (leave_push hw).1, (leave_push hw).2⟩
  inCall name hx := fun m => by
    rw [after_inCall, states_inCall]
    refine (bracketed_between hx (opens_enterCall m name) fun t hw => ?_).2
    refine ⟨rfl, rfl, rfl, ?_⟩
    rw [leaveCall, depth_pop, hw.depth]
    rfl

/-- What is true of the scopes at the end of a run that began in the state `m`, whether it ended
with a result or was stopped. Where a scope was opened in between, it is one on top of those that
were open at the beginning, since these are open all the time. -/
structure RestoresScopes (x : Run α) (m : Machine) : Prop where
  size : (x.after m).frames.size = m.frames.size
  parents : ∀ k : Nat, (x.after m).frames[k]?.map (·.parent) = m.frames[k]?.map (·.parent)
  current : (x.after m).current = m.current
  depth : (x.after m).depth = m.depth
  onTop : ∀ s ∈ x.states m, m.frames.size ≤ s.frames.size
  freed : ∀ s ∈ x.states m, ∀ k h, m.frames.size ≤ k → s.Owns k h → (x.after m).arena.Freed h

theorem Bracketed.restoresScopes {x : Run α} (hx : Bracketed x) (m : Machine) :
    RestoresScopes x m where
  size := (hx m).1.size
  parents := (hx m).1.parents
  current := (hx m).1.current
  depth := (hx m).1.depth
  onTop s hs := ((hx m).2 s hs).size
  freed s hs := ((hx m).2 s hs).popped

/-- Every statement, instruction, expression, place, declaration and call restores the scopes,
whatever state it begins in and however it ends. -/
theorem scopes_restored (known : Nat → Option CType) (calls fuel : Nat) (m : Machine) :
    (∀ s, RestoresScopes (stmt ⟨known, call known calls⟩ fuel s) m) ∧
    (∀ i, RestoresScopes (instr ⟨known, call known calls⟩ i) m) ∧
    (∀ d, RestoresScopes (declaration ⟨known, call known calls⟩ d) m) ∧
    (∀ e, RestoresScopes (eval ⟨known, call known calls⟩ e) m) ∧
    (∀ new e, RestoresScopes (place ⟨known, call known calls⟩ new e) m) ∧
    (∀ f args pos, RestoresScopes (call known calls f args pos) m) := by
  have hctx := composed_bracketed.context known calls
  refine ⟨fun s => ?_, fun i => ?_, fun d => ?_, fun e => ?_, fun new e => ?_, ?_⟩
  · exact (hctx.stmt fuel s).restoresScopes m
  · exact (hctx.instr i).restoresScopes m
  · exact (hctx.declaration d).restoresScopes m
  · exact (hctx.eval e).restoresScopes m
  · exact (hctx.place new e).restoresScopes m
  · exact fun f args pos => (hctx.call f args pos).restoresScopes m

end Run

end MiniC
