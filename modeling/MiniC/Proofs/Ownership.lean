import MiniC.Proofs.Scopes

set_option autoImplicit false

/-! # Who owns the buffers

In every state of a run, each buffer of a variable or a declared array is owned by one scope, which
frees it when it is left; the buffers of string literals, and those that were made inside struct
values, are owned by none and stay. `Ownership` is what is true of one state, and `Later` of two
states of which one comes after the other. -/

namespace MiniC

namespace Machine

/-- Whether a buffer is live and will stay so: it has no owner that could free it. -/
def Static (m : Machine) (h : Nat) : Prop :=
  m.arena.Live h ∧ ∀ k, ¬m.Owns k h

/-- The invariant of a state: scopes lie in scopes below them; variables are live buffers of one
value, owned by the scope that the variable is in; what is owned is live, and has one owner. -/
structure Ownership (m : Machine) : Prop where
  current : m.current < m.frames.size
  parents : ∀ (k : Nat) frame p, m.frames[k]? = some frame → frame.parent = some p → p < k
  bindings : ∀ (k : Nat) frame, m.frames[k]? = some frame → ∀ id b, (id, b) ∈ frame.bindings →
    b.handle ∈ frame.owned ∧
      ∃ values, m.arena.buffer? b.handle = some values ∧ values.size = 1
  live : ∀ k h, m.Owns k h → m.arena.Live h
  once : ∀ (k : Nat) frame, m.frames[k]? = some frame → frame.owned.toList.Nodup
  one : ∀ j k h, m.Owns j h → m.Owns k h → j = k
  strings : ∀ slot h, (slot, h) ∈ m.strings → m.Static h

/-- What is true of a state and a later one: handles are given out in ascending order and never
again, so that what was freed stays freed; what is owned stays owned by the same scope until it is
freed; and what has no owner stays. -/
structure Later (m m' : Machine) : Prop where
  next : m.arena.next ≤ m'.arena.next
  freed : ∀ h, m.arena.Freed h → m'.arena.Freed h
  owned : ∀ k h, m.Owns k h → m'.Owns k h ∨ m'.arena.Freed h
  static : ∀ h, m.Static h → m'.Static h
  strings : ∀ e ∈ m.strings, e ∈ m'.strings

theorem Later.refl (m : Machine) : m.Later m :=
  ⟨Nat.le_refl _, fun _ => id, fun _ _ => .inl, fun _ => id, fun _ => id⟩

theorem Later.trans ⦃m t u : Machine⦄ (h₁ : m.Later t) (h₂ : t.Later u) : m.Later u where
  next := Nat.le_trans h₁.next h₂.next
  freed h hfreed := h₂.freed h (h₁.freed h hfreed)
  owned k h howns := by
    rcases h₁.owned k h howns with howns | hfreed
    · exact h₂.owned k h howns
    · exact .inr (h₂.freed h hfreed)
  static h hstatic := h₂.static h (h₁.static h hstatic)
  strings e he := h₂.strings e (h₁.strings e he)

/-- The next handle names no live buffer, and has no owner. -/
theorem Ownership.not_owns_next {m : Machine} (hm : m.Ownership) (k : Nat) :
    ¬m.Owns k m.arena.next := by
  intro howns
  exact Nat.lt_irrefl _ (hm.live k _ howns).bounds.2

/-! ## Steps that leave the scopes alone -/

/-- A step by which buffers are made without an owner, or changed. -/
theorem Ownership.of_grows {m m' : Machine} (hm : m.Ownership) (hframes : m'.frames = m.frames)
    (hcurrent : m'.current = m.current) (harena : m.arena.Grows m'.arena)
    (hstrings : ∀ slot h, (slot, h) ∈ m'.strings → (slot, h) ∈ m.strings ∨ m'.Static h)
    (hkept : ∀ e ∈ m.strings, e ∈ m'.strings) : m'.Ownership ∧ m.Later m' := by
  have howns : ∀ k h, m'.Owns k h ↔ m.Owns k h := fun k h => owns_congr (by rw [hframes]) h
  have hstatic : ∀ h, m.Static h → m'.Static h := by
    intro h hs
    exact ⟨harena.live hs.1, fun k hk => hs.2 k ((howns k h).mp hk)⟩
  constructor
  · refine ⟨?_, ?_, ?_, ?_, ?_, ?_, ?_⟩
    · rw [hframes, hcurrent]
      exact hm.current
    · rw [hframes]
      exact hm.parents
    · rw [hframes]
      intro k frame hframe id b hb
      obtain ⟨hmem, values, hvalues, hsize⟩ := hm.bindings k frame hframe id b hb
      obtain ⟨values', hvalues', hsize'⟩ := harena.sizes _ values hvalues
      exact ⟨hmem, values', hvalues', hsize'.trans hsize⟩
    · exact fun k h hk => harena.live (hm.live k h ((howns k h).mp hk))
    · rw [hframes]
      exact hm.once
    · exact fun j k h hj hk => hm.one j k h ((howns j h).mp hj) ((howns k h).mp hk)
    · intro slot h hmem
      rcases hstrings slot h hmem with hmem | hs
      · exact hstatic h (hm.strings slot h hmem)
      · exact hs
  · exact ⟨harena.next, harena.freed, fun k h hk => .inl ((howns k h).mpr hk), hstatic, hkept⟩

theorem Ownership.alloc {m : Machine} (hm : m.Ownership) (values : Array Value) :
    (m.alloc values).2.Ownership ∧ m.Later (m.alloc values).2 :=
  hm.of_grows rfl rfl (m.arena.grows_alloc values) (fun _ _ => .inl) fun _ => id

/-- A buffer that was made without an owner is static. -/
theorem Ownership.static_alloc {m : Machine} (hm : m.Ownership) (values : Array Value) :
    (m.alloc values).2.Static (m.alloc values).1 := by
  refine ⟨?_, hm.not_owns_next⟩
  change ((m.arena.alloc values).2.buffer? m.arena.next).isSome
  rw [Arena.buffer?_alloc, if_pos rfl]
  rfl

theorem Ownership.keepString {m : Machine} (hm : m.Ownership) (slot : Nat)
    (values : Array Value) :
    (m.keepString slot values).2.Ownership ∧ m.Later (m.keepString slot values).2 := by
  refine hm.of_grows rfl rfl (m.arena.grows_alloc values) ?_ ?_
  · intro slot' h hmem
    rcases List.mem_cons.mp hmem with heq | hmem
    · cases heq
      exact .inr (hm.static_alloc values)
    · exact .inl hmem
  · exact fun e he => List.mem_cons_of_mem _ he

theorem Ownership.put {m : Machine} (hm : m.Ownership) (p : Pointer) (v : Value) :
    ({ m with arena := m.arena.put p v } : Machine).Ownership ∧
      m.Later { m with arena := m.arena.put p v } :=
  hm.of_grows rfl rfl (m.arena.grows_put p v) (fun _ _ => .inl) fun _ => id

/-! ## Buffers and variables of the current scope -/

theorem Ownership.own {m : Machine} (hm : m.Ownership) (values : Array Value) :
    (m.own values).2.Ownership ∧ m.Later (m.own values).2 := by
  have harena : m.arena.Grows (m.own values).2.arena := m.arena.grows_alloc values
  -- One frame owns the new buffer in addition, and nothing else of any frame is different.
  have hframe : ∀ {k : Nat} {frame' : Frame}, (m.own values).2.frames[k]? = some frame' →
      ∃ frame, m.frames[k]? = some frame ∧ frame'.parent = frame.parent ∧
        frame'.bindings = frame.bindings ∧
        (frame'.owned = frame.owned ∨ frame'.owned = frame.owned.push m.arena.next) := by
    intro k frame' h
    rw [frames_own, Array.getElem?_modify] at h
    split at h
    · obtain ⟨frame, hframe, rfl⟩ := Option.map_eq_some_iff.mp h
      exact ⟨frame, hframe, rfl, rfl, .inr rfl⟩
    · exact ⟨frame', h, rfl, rfl, .inl rfl⟩
  have hnext : (m.own values).2.arena.Live m.arena.next := by
    rw [Arena.Live, arena_own, Arena.buffer?_alloc, if_pos rfl]
    rfl
  have hstatic : ∀ h, m.Static h → (m.own values).2.Static h := by
    intro h hs
    refine ⟨harena.live hs.1, fun k hk => ?_⟩
    rcases owns_own.mp hk with hk | ⟨-, -, rfl⟩
    · exact hs.2 k hk
    · exact Nat.lt_irrefl _ hs.1.bounds.2
  constructor
  · refine ⟨?_, ?_, ?_, ?_, ?_, ?_, ?_⟩
    · rw [frames_own, Array.size_modify]
      exact hm.current
    · intro k frame' p h hp
      obtain ⟨frame, hframe, hparent, -, -⟩ := hframe h
      exact hm.parents k frame p hframe (hparent ▸ hp)
    · intro k frame' h id b hb
      obtain ⟨frame, hframe, -, hbindings, howned⟩ := hframe h
      obtain ⟨hmem, old, hold, hsize⟩ := hm.bindings k frame hframe id b (hbindings ▸ hb)
      obtain ⟨new, hnew, hsize'⟩ := harena.sizes _ old hold
      refine ⟨?_, new, hnew, hsize'.trans hsize⟩
      rcases howned with howned | howned
      · rw [howned]
        exact hmem
      · rw [howned]
        exact Array.mem_push_of_mem _ hmem
    · intro k h hk
      rcases owns_own.mp hk with hk | ⟨-, -, rfl⟩
      · exact harena.live (hm.live k h hk)
      · exact hnext
    · intro k frame' h
      obtain ⟨frame, hframe, -, -, howned⟩ := hframe h
      have honce := hm.once k frame hframe
      rcases howned with howned | howned
      · rw [howned]
        exact honce
      · rw [howned, Array.toList_push, List.nodup_append]
        refine ⟨honce, List.pairwise_singleton _ _, fun h hmem h' hmem' heq => ?_⟩
        rw [List.mem_singleton] at hmem'
        subst heq hmem'
        exact hm.not_owns_next k ⟨frame, hframe, Array.mem_toList_iff.mp hmem⟩
    · intro j k h hj hk
      rcases owns_own.mp hj with hj | ⟨rfl, -, rfl⟩
      -- No scope owned a buffer that was not made yet, so only one owns it now.
      · rcases owns_own.mp hk with hk | ⟨-, -, rfl⟩
        · exact hm.one j k h hj hk
        · exact absurd hj (hm.not_owns_next j)
      · rcases owns_own.mp hk with hk | ⟨rfl, -, -⟩
        · exact absurd hk (hm.not_owns_next k)
        · rfl
    · exact fun slot h hmem => hstatic h (hm.strings slot h hmem)
  · refine ⟨harena.next, harena.freed, ?_, hstatic, fun _ => id⟩
    exact fun k h hk => .inl (owns_own.mpr (.inl hk))

theorem Ownership.bind {m : Machine} (hm : m.Ownership) (id : Nat) (t : CType) (v : Value) :
    (m.bind id t v).Ownership ∧ m.Later (m.bind id t v) := by
  obtain ⟨hown, hlater⟩ := hm.own #[v]
  -- Against the state in which the buffer was made, one frame has a new name, and nothing else is
  -- different.
  have hframe : ∀ {k : Nat} {frame' : Frame}, (m.bind id t v).frames[k]? = some frame' →
      ∃ frame, (m.own #[v]).2.frames[k]? = some frame ∧ frame'.parent = frame.parent ∧
        frame'.owned = frame.owned ∧ ∀ id' b, (id', b) ∈ frame'.bindings →
          (id', b) ∈ frame.bindings ∨ b.handle = m.arena.next ∧ k = m.current := by
    intro k frame' h
    rw [frames_bind, Array.getElem?_modify] at h
    split at h
    · rename_i hk
      obtain ⟨frame, hframe, rfl⟩ := Option.map_eq_some_iff.mp h
      refine ⟨frame, hframe, rfl, rfl, fun id' b hb => ?_⟩
      rcases List.mem_cons.mp hb with heq | hb
      · cases heq
        exact .inr ⟨rfl, hk.symm⟩
      · exact .inl (List.mem_of_mem_filter hb)
    · exact ⟨frame', h, rfl, rfl, fun _ _ => .inl⟩
  have howns : ∀ k h, (m.bind id t v).Owns k h ↔ (m.own #[v]).2.Owns k h := fun _ _ => owns_bind
  constructor
  · refine ⟨?_, ?_, ?_, ?_, ?_, ?_, ?_⟩
    · rw [frames_bind, Array.size_modify]
      exact hown.current
    · intro k frame' p h hp
      obtain ⟨frame, hframe, hparent, -, -⟩ := hframe h
      exact hown.parents k frame p hframe (hparent ▸ hp)
    · intro k frame' h id' b hb
      obtain ⟨frame, hframe, -, howned, hbindings⟩ := hframe h
      rw [howned]
      rcases hbindings id' b hb with hb | ⟨hnew, rfl⟩
      · exact hown.bindings k frame hframe id' b hb
      · rw [hnew]
        -- The new name stands for the buffer that was made for it, which the scope it is in owns.
        have hk : (m.own #[v]).2.Owns m.current m.arena.next :=
          owns_own.mpr (.inr ⟨rfl, hm.current, rfl⟩)
        obtain ⟨frame'', hframe'', hmem⟩ := hk
        rw [hframe] at hframe''
        cases hframe''
        refine ⟨hmem, #[v], ?_, rfl⟩
        rw [arena_bind, Arena.buffer?_alloc, if_pos rfl]
    · exact fun k h hk => hown.live k h ((howns k h).mp hk)
    · intro k frame' h
      obtain ⟨frame, hframe, -, howned, -⟩ := hframe h
      rw [howned]
      exact hown.once k frame hframe
    · exact fun j k h hj hk => hown.one j k h ((howns j h).mp hj) ((howns k h).mp hk)
    · intro slot h hmem
      obtain ⟨hlive, hfree⟩ := hown.strings slot h hmem
      exact ⟨hlive, fun k hk => hfree k ((howns k h).mp hk)⟩
  · refine ⟨hlater.next, hlater.freed, ?_, ?_, hlater.strings⟩
    · exact fun k h hk => (hlater.owned k h hk).imp_left (howns k h).mpr
    · intro h hs
      obtain ⟨hlive, hfree⟩ := hlater.static h hs
      exact ⟨hlive, fun k hk => hfree k ((howns k h).mp hk)⟩

/-! ## Opening and leaving scopes -/

theorem Ownership.opens {m e : Machine} (hm : m.Ownership) {parent : Nat}
    (hframes : e.frames = m.frames.push (.opened (some parent)))
    (hcurrent : e.current = m.frames.size) (harena : e.arena = m.arena)
    (hstrings : e.strings = m.strings) (hparent : parent < m.frames.size) :
    e.Ownership ∧ m.Later e := by
  have hopens : m.Opens e := ⟨⟨parent, hframes⟩, hcurrent, harena⟩
  have hframe : ∀ {k : Nat} {frame : Frame}, e.frames[k]? = some frame →
      m.frames[k]? = some frame ∨ k = m.frames.size ∧ frame = .opened (some parent) := by
    intro k frame h
    rw [hframes, Array.getElem?_push] at h
    split at h
    · rename_i hk
      exact .inr ⟨hk, (Option.some.inj h).symm⟩
    · exact .inl h
  have howns : ∀ k h, e.Owns k h ↔ m.Owns k h := by
    refine fun k h => ⟨hopens.owns, fun hk => ?_⟩
    refine (owns_congr ?_ h).mpr hk
    rw [hframes, Array.getElem?_push, if_neg (Nat.ne_of_lt hk.lt_size)]
  have hstatic : ∀ h, m.Static h → e.Static h :=
    fun h hs => ⟨harena ▸ hs.1, fun k hk => hs.2 k ((howns k h).mp hk)⟩
  constructor
  · refine ⟨?_, ?_, ?_, ?_, ?_, ?_, ?_⟩
    · rw [hcurrent, hopens.size]
      exact Nat.lt_succ_self _
    · intro k frame p h hp
      rcases hframe h with h | ⟨rfl, rfl⟩
      · exact hm.parents k frame p h hp
      · cases hp
        exact hparent
    · intro k frame h id b hb
      rw [harena]
      rcases hframe h with h | ⟨rfl, rfl⟩
      · exact hm.bindings k frame h id b hb
      · cases hb
    · exact fun k h hk => harena ▸ hm.live k h ((howns k h).mp hk)
    · intro k frame h
      rcases hframe h with h | ⟨rfl, rfl⟩
      · exact hm.once k frame h
      · exact List.Pairwise.nil
    · exact fun j k h hj hk => hm.one j k h ((howns j h).mp hj) ((howns k h).mp hk)
    · intro slot h hmem
      rw [hstrings] at hmem
      exact hstatic h (hm.strings slot h hmem)
  · refine ⟨Nat.le_of_eq (by rw [harena]), fun h hf => harena ▸ hf, ?_, hstatic, ?_⟩
    · exact fun k h hk => .inl ((howns k h).mpr hk)
    · exact fun e he => hstrings ▸ he

theorem Ownership.push {m : Machine} (hm : m.Ownership) {parent : Nat}
    (hparent : parent < m.frames.size) :
    (m.push parent).Ownership ∧ m.Later (m.push parent) :=
  hm.opens rfl rfl rfl rfl hparent

/-- Leaving a scope frees the buffers that it owns. -/
theorem Ownership.freed_of_pop {m : Machine} (hm : m.Ownership) {top : Frame}
    (htop : m.frames.back? = some top) {h : Nat} (hmem : h ∈ top.owned) :
    m.pop.arena.Freed h := by
  rw [Array.back?_eq_getElem?] at htop
  have hbounds := (hm.live _ h ⟨top, htop, hmem⟩).bounds
  rw [← Array.back?_eq_getElem?] at htop
  rw [pop_eq htop]
  refine ⟨hbounds.1, ?_, ?_⟩
  · rw [Arena.next_freeAll]
    exact hbounds.2
  · rw [Arena.buffer?_freeAll, if_pos hmem]

/-- Leaving a scope frees nothing else. -/
theorem buffer?_pop {m : Machine} {top : Frame} (htop : m.frames.back? = some top) (h : Nat) :
    m.pop.arena.buffer? h = if h ∈ top.owned then none else m.arena.buffer? h := by
  rw [pop_eq htop]
  exact Arena.buffer?_freeAll m.arena top.owned h

theorem Ownership.leaves {m m' : Machine} (hm : m.Ownership) {top : Frame}
    (htop : m.frames.back? = some top) (hframes : m'.frames = m.pop.frames)
    (harena : m'.arena = m.pop.arena) (hstrings : m'.strings = m.strings)
    (hcurrent : m'.current < m'.frames.size) : m'.Ownership ∧ m.Later m' := by
  rw [pop_eq htop] at hframes
  have hlast : m.frames[m.frames.size - 1]? = some top := by
    rw [← Array.back?_eq_getElem?]
    exact htop
  have hframe : ∀ {k : Nat}, k < m.frames.size - 1 → m'.frames[k]? = m.frames[k]? := by
    intro k hk
    rw [hframes, Array.getElem?_pop, if_pos hk]
  have hlt : ∀ {k : Nat} {frame : Frame}, m'.frames[k]? = some frame → k < m.frames.size - 1 := by
    intro k frame h
    have hk := (Array.getElem?_eq_some_iff.mp h).1
    rw [hframes, Array.size_pop] at hk
    exact hk
  have howns : ∀ {k h}, m'.Owns k h → m.Owns k h := by
    rintro k h ⟨frame, h', hmem⟩
    exact ⟨frame, hframe (hlt h') ▸ h', hmem⟩
  -- what a scope below owns is not owned by the scope on top
  have hbelow : ∀ {k h}, k < m.frames.size - 1 → m.Owns k h → h ∉ top.owned := by
    intro k h hk howns hmem
    have := hm.one k _ h howns ⟨top, hlast, hmem⟩
    omega
  have hbuffer : ∀ h, h ∉ top.owned → m'.arena.buffer? h = m.arena.buffer? h := by
    intro h hmem
    rw [harena, buffer?_pop htop, if_neg hmem]
  have hfreed : ∀ h, m.arena.Freed h → m'.arena.Freed h := by
    intro h hf
    rw [harena, pop_eq htop]
    exact hf.freeAll top.owned
  have hstatic : ∀ h, m.Static h → m'.Static h := by
    intro h hs
    refine ⟨?_, fun k hk => hs.2 k (howns hk)⟩
    rw [Arena.Live, hbuffer h fun hmem => hs.2 _ ⟨top, hlast, hmem⟩]
    exact hs.1
  constructor
  · refine ⟨hcurrent, ?_, ?_, ?_, ?_, ?_, ?_⟩
    · exact fun k frame p h hp => hm.parents k frame p (hframe (hlt h) ▸ h) hp
    · intro k frame h id b hb
      have h' := hframe (hlt h) ▸ h
      obtain ⟨hmem, hvalues⟩ := hm.bindings k frame h' id b hb
      rw [hbuffer _ (hbelow (hlt h) ⟨frame, h', hmem⟩)]
      exact ⟨hmem, hvalues⟩
    · rintro k h ⟨frame, h', hmem⟩
      have hk := howns ⟨frame, h', hmem⟩
      rw [Arena.Live, hbuffer h (hbelow (hlt h') hk)]
      exact hm.live k h hk
    · exact fun k frame h => hm.once k frame (hframe (hlt h) ▸ h)
    · exact fun j k h hj hk => hm.one j k h (howns hj) (howns hk)
    · intro slot h hmem
      rw [hstrings] at hmem
      exact hstatic h (hm.strings slot h hmem)
  · refine ⟨?_, hfreed, ?_, hstatic, fun e he => hstrings ▸ he⟩
    · have hnext : m'.arena.next = m.arena.next := by
        rw [harena, pop_eq htop, Arena.next_freeAll]
      exact Nat.le_of_eq hnext.symm
    · rintro k h ⟨frame, h', hmem⟩
      by_cases hk : k < m.frames.size - 1
      · exact .inl ⟨frame, by rw [hframe hk]; exact h', hmem⟩
      · have hsize := (Array.getElem?_eq_some_iff.mp h').1
        obtain rfl : k = m.frames.size - 1 := by omega
        rw [hlast] at h'
        cases h'
        rw [harena]
        exact .inr (hm.freed_of_pop htop hmem)

end Machine

/-! ## Runs -/

namespace Run

open Machine

variable {α β : Type}

/-- A run that leaves the scopes as it found them, and along whose states the invariant holds. -/
def Orderly (x : Run α) : Prop :=
  Bracketed x ∧ Traced.Evolves Ownership Later x

theorem orderly_of_still {x : Run α} (hx : Bracketed x)
    (hstill : ∀ m, x.trace m = [] ∧ x.after m = m) : Orderly x :=
  ⟨hx, Traced.evolves_of_still Later.refl hstill⟩

theorem orderly_of_change {x : Run α} {g : Machine → Machine} (hx : Bracketed x)
    (hchange : ∀ m, (x.trace m).map (·.state) = [g m] ∧ x.after m = g m)
    (hg : ∀ m : Machine, m.Ownership → (g m).Ownership ∧ m.Later (g m)) : Orderly x :=
  ⟨hx, Traced.evolves_of_change Later.refl hchange hg⟩

/-- A scope may be left after a run in it. -/
theorem leaves_scope {x : Run α} (hx : Bracketed x) {m : Machine} (hm : m.Ownership)
    (ht : (x.after (m.push m.current)).Ownership) :
    (x.after (m.push m.current)).pop.Ownership ∧
      (x.after (m.push m.current)).Later (x.after (m.push m.current)).pop := by
  have hw := (hx (m.push m.current)).1
  obtain ⟨hframes, top, -, htop⟩ := (opens_push m m.current).pop hw
  refine ht.leaves htop rfl rfl (strings_pop _) ?_
  rw [hframes, (leave_push hw).1]
  exact hm.current

/-- The scope of a function may be left after a run in it. -/
theorem leaves_call {x : Run α} (hx : Bracketed x) {m : Machine} (hm : m.Ownership)
    {name : String} (ht : (x.after (m.enterCall name)).Ownership) :
    ((x.after (m.enterCall name)).leaveCall m.current).Ownership ∧
      (x.after (m.enterCall name)).Later ((x.after (m.enterCall name)).leaveCall m.current) := by
  have hw := (hx (m.enterCall name)).1
  obtain ⟨hframes, top, -, htop⟩ := (opens_enterCall m name).pop hw
  refine ht.leaves htop rfl rfl (strings_pop _) ?_
  rw [leaveCall, hframes]
  exact hm.current

theorem orderly_inScope {x : Run α} (hx : Orderly x) : Orderly (inScope x) := by
  refine ⟨composed_bracketed.inScope hx.1, fun m hm => ?_⟩
  exact Traced.evolves_between Later.refl Later.trans hx.2 hm (hm.push hm.current)
    (leaves_scope hx.1 hm)

theorem orderly_inCall {x : Run α} (name : String) (hx : Orderly x) :
    Orderly (inCall name x) := by
  refine ⟨composed_bracketed.inCall name hx.1, fun m hm => ?_⟩
  rw [states_inCall]
  refine Traced.evolves_between Later.refl Later.trans hx.2 hm ?_ (leaves_call hx.1 hm)
  exact hm.opens rfl rfl rfl rfl (Nat.zero_lt_of_lt hm.current)

theorem orderly_bind {x : Run α} {f : α → Run β} (hx : Orderly x) (hf : ∀ a, Orderly (f a)) :
    Orderly (x >>= f) :=
  ⟨bracketed_bind hx.1 fun a => (hf a).1, Traced.evolves_bind Later.trans hx.2 fun a => (hf a).2⟩

theorem orderly_get : Orderly (get : Run Machine) :=
  orderly_of_still bracketed_get fun _ => ⟨rfl, rfl⟩

theorem orderly_throw (stop : Stop) : Orderly (throw stop : Run α) :=
  orderly_of_still (bracketed_throw stop) fun _ => ⟨rfl, rfl⟩

/-- The invariant holds along all runs. -/
theorem composed_orderly : Declaring @Orderly where
  pure a := orderly_of_still (composed_bracketed.pure a) fun _ => ⟨rfl, rfl⟩
  stop _ _ := orderly_throw _
  anyStop stop _ _ := orderly_throw stop
  missingLabel _ _ := orderly_throw _
  observe _ hf := orderly_bind orderly_get fun m => hf m fun _ => orderly_throw _
  observeName _ _ _ hf := orderly_bind orderly_get hf
  bind := orderly_bind
  alloc values := orderly_of_change (composed_bracketed.alloc values) (fun _ => ⟨rfl, rfl⟩)
    fun _ hm => hm.alloc values
  keepString slot values := orderly_of_change (composed_bracketed.keepString slot values)
    (fun _ => ⟨rfl, rfl⟩) fun _ hm => hm.keepString slot values
  put p v := orderly_of_change (composed_bracketed.put p v) (fun _ => ⟨rfl, rfl⟩)
    fun _ hm => hm.put p v
  beside f hf hfree := by
    refine orderly_of_change (composed_bracketed.beside f hf hfree) (fun _ => ⟨rfl, rfl⟩) ?_
    intro m hm
    obtain ⟨records, output, events, -, h⟩ := hf m
    rw [h]
    exact hm.of_grows rfl rfl (.refl _) (fun _ _ => .inl) fun _ => id
  declares f := orderly_of_change (composed_bracketed.declares f) (fun _ => ⟨rfl, rfl⟩)
    fun _ hm => hm.of_grows rfl rfl (.refl _) (fun _ _ => .inl) fun _ => id
  register f hf hfree := by
    refine orderly_of_change (composed_bracketed.register f hf hfree) (fun _ => ⟨rfl, rfl⟩) ?_
    intro m hm
    obtain ⟨functions, prototypes, h⟩ := hf m
    change (f m).Ownership ∧ m.Later (f m)
    rw [h]
    exact hm.of_grows rfl rfl (.refl _) (fun _ _ => .inl) fun _ => id
  own values := orderly_of_change (composed_bracketed.own values) (fun _ => ⟨rfl, rfl⟩)
    fun _ hm => hm.own values
  bindName id t v := orderly_of_change (composed_bracketed.bindName id t v)
    (fun _ => ⟨rfl, rfl⟩) fun _ hm => hm.bind id t v
  introduce name t v := ⟨composed_bracketed.introduce name t v, by
    refine Traced.evolves_bind Later.trans
      (Traced.evolves_of_change Later.refl (fun _ => ⟨rfl, rfl⟩) fun m hm => hm.bind _ t v)
      fun _ => ?_
    exact Traced.evolves_of_change Later.refl (fun _ => ⟨rfl, rfl⟩) fun m hm => ⟨hm, .refl m⟩⟩
  use leaf := orderly_of_change (composed_bracketed.use leaf) (fun _ => ⟨rfl, rfl⟩)
    fun m hm => ⟨hm, .refl m⟩
  located pos hx := ⟨composed_bracketed.located pos hx.1, Traced.evolves_mapError _ hx.2⟩
  inScope := orderly_inScope
  inCall := orderly_inCall

/-! ## Operations on the scopes of one machine -/

/-- What can be done with the scopes of a machine from outside. -/
inductive ScopeOp
  | push
  | pushRoot
  | pop
  | bind (name : Token) (type : CType) (v : Value)
  | own (values : Array Value)
  | assign (name : Token) (v : Value)

/-- Does an operation. The global scope is never left. -/
def ScopeOp.run : ScopeOp → Run Unit
  | .push => modify fun m => m.push m.current
  | .pushRoot => modify fun m => m.push globalScope
  | .pop => modify fun m => if 1 < m.frames.size then m.pop else m
  | .bind name t v => Run.bind name t v
  | .own values => do
    let _ ← newBuffer true values
  | .assign name v => do
    let place ← variableFor name v
    let _ ← place.assign v (some name.pos)

/-- Does operations one after another, also after one that was stopped. -/
def scopeOps (ops : List ScopeOp) : Run Unit :=
  ops.forM fun op => tryCatch op.run fun _ => pure ()

theorem evolves_scopeOp (op : ScopeOp) : Traced.Evolves Ownership Later op.run := by
  have hP := composed_orderly
  cases op with
  | push =>
    exact Traced.evolves_of_change Later.refl (fun _ => ⟨rfl, rfl⟩)
      fun m hm => hm.push hm.current
  | pushRoot =>
    exact Traced.evolves_of_change Later.refl (fun _ => ⟨rfl, rfl⟩)
      fun m hm => hm.push (Nat.zero_lt_of_lt hm.current)
  | pop =>
    have hpop : ∀ m : Machine, m.Ownership →
        (if 1 < m.frames.size then m.pop else m).Ownership ∧
          m.Later (if 1 < m.frames.size then m.pop else m) := by
      intro m hm
      split
      · rename_i hsize
        have hlt : m.frames.size - 1 < m.frames.size := by omega
        have htop : m.frames.back? = some m.frames[m.frames.size - 1] := by
          rw [Array.back?_eq_getElem?, Array.getElem?_eq_getElem hlt]
        refine hm.leaves htop rfl rfl (strings_pop m) ?_
        rw [pop_eq htop]
        change (m.frames[m.frames.size - 1].parent.getD globalScope) < m.frames.pop.size
        rw [Array.size_pop]
        cases hparent : m.frames[m.frames.size - 1].parent with
        | none =>
          change 0 < m.frames.size - 1
          omega
        | some p =>
          exact hm.parents _ _ p (Array.getElem?_eq_getElem hlt) hparent
      · exact ⟨hm, .refl m⟩
    exact Traced.evolves_of_change Later.refl (fun _ => ⟨rfl, rfl⟩) hpop
  | bind name t v => exact (hP.bindName name.id t v).2
  | own values => exact (hP.bind (hP.own values) fun _ => hP.pure _).2
  | assign name v =>
    refine (hP.bind (hP.variableFor name v) fun place => ?_).2
    exact hP.bind (hP.assign place v _) fun _ => hP.pure _

theorem evolves_scopeOps (ops : List ScopeOp) :
    Traced.Evolves Ownership Later (scopeOps ops) := by
  induction ops with
  | nil => exact Traced.evolves_of_still Later.refl fun _ => ⟨rfl, rfl⟩
  | cons op ops ih =>
    refine Traced.evolves_bind Later.trans ?_ fun _ => ih
    refine Traced.evolves_tryCatch Later.trans (evolves_scopeOp op) fun _ => ?_
    exact Traced.evolves_of_still Later.refl fun _ => ⟨rfl, rfl⟩

/-! ## Buffers inside struct values -/

/-- A run that makes no buffers but such as have no owner, and frees none. -/
def Unowning (x : Run α) : Prop :=
  ∀ m, (x.after m).frames = m.frames ∧ m.arena.Grows (x.after m).arena ∧
    ∀ h, m.arena.next ≤ h → h < (x.after m).arena.next → (x.after m).arena.Live h

theorem unowning_of_same {x : Run α}
    (hx : ∀ m, (x.after m).frames = m.frames ∧ (x.after m).arena = m.arena) : Unowning x := by
  intro m
  obtain ⟨hframes, harena⟩ := hx m
  refine ⟨hframes, by rw [harena]; exact .refl _, fun h h₀ h₁ => ?_⟩
  rw [harena] at h₁
  exact absurd h₁ (Nat.not_lt_of_le h₀)

theorem unowning_bind {x : Run α} {f : α → Run β} (hx : Unowning x) (hf : ∀ a, Unowning (f a)) :
    Unowning (x >>= f) := by
  intro m
  obtain ⟨hframes, hgrows, hnew⟩ := hx m
  cases h : x.exec m with
  | error e t =>
    rw [Traced.after_bind_of_error f h]
    exact ⟨hframes, hgrows, hnew⟩
  | ok a t =>
    rw [Traced.after_bind_of_ok f h]
    obtain rfl : x.after m = t := Traced.after_of_ok h
    obtain ⟨hframes', hgrows', hnew'⟩ := hf a (x.after m)
    refine ⟨hframes'.trans hframes, hgrows.trans hgrows', fun h h₀ h₁ => ?_⟩
    by_cases hlt : h < (x.after m).arena.next
    · exact hgrows'.live (hnew h h₀ hlt)
    · exact hnew' h (Nat.le_of_not_lt hlt) h₁

theorem closed_unowning : Closed @Unowning where
  pure _ := unowning_of_same fun _ => ⟨rfl, rfl⟩
  stop _ _ := unowning_of_same fun _ => ⟨rfl, rfl⟩
  observe _ hf := unowning_bind (unowning_of_same fun _ => ⟨rfl, rfl⟩) fun m =>
    hf m fun _ => unowning_of_same fun _ => ⟨rfl, rfl⟩
  beside f hf _ := unowning_of_same fun m => by
    obtain ⟨records, output, events, -, h⟩ := hf m
    change (f m).2.frames = _ ∧ (f m).2.arena = _
    rw [h]
    exact ⟨rfl, rfl⟩
  put p v := fun m => by
    refine ⟨rfl, m.arena.grows_put p v, fun h h₀ h₁ => ?_⟩
    change h < (m.arena.put p v).next at h₁
    rw [Arena.next_put] at h₁
    exact absurd h₁ (Nat.not_lt_of_le h₀)
  alloc values := fun m => by
    refine ⟨rfl, m.arena.grows_alloc values, fun h h₀ h₁ => ?_⟩
    change h < (m.arena.alloc values).2.next at h₁
    rw [Arena.next_alloc] at h₁
    obtain rfl : h = m.arena.next := by omega
    change ((m.arena.alloc values).2.buffer? m.arena.next).isSome
    rw [Arena.buffer?_alloc, if_pos rfl]
    rfl
  bind := unowning_bind

/-- The buffers that a run makes without an owner are static from then on. -/
theorem Unowning.static {x : Run α} (hx : Unowning x) {m : Machine} (hm : m.Ownership) {h : Nat}
    (h₀ : m.arena.next ≤ h) (h₁ : h < (x.after m).arena.next) : (x.after m).Static h := by
  obtain ⟨hframes, -, hnew⟩ := hx m
  refine ⟨hnew h h₀ h₁, fun k hk => ?_⟩
  have hlive := hm.live k h ((owns_congr (by rw [hframes]) h).mp hk)
  exact Nat.lt_irrefl _ (Nat.lt_of_lt_of_le hlive.bounds.2 h₀)

end Run

/-! ## The invariant of all runs -/

namespace Machine

/-- Whether nothing can be read or changed through pointers to a buffer. -/
def Dangling (m : Machine) (h : Nat) : Prop :=
  ∀ p : Pointer, p.buffer = h →
    (Run.load p).exec m = .error (.fault .invalidIndex none) m ∧
    ∀ v, (Run.store p v).exec m = .error (.fault .invalidIndex none) m

theorem dangling_of_freed {m : Machine} {h : Nat} (hfreed : m.arena.Freed h) : m.Dangling h := by
  rintro p rfl
  have hload : Run.lift (m.arena.load p) = Run.fail .invalidIndex none := by
    rw [hfreed.load]
    rfl
  have hlocate : Run.lift (m.arena.locate p) = Run.fail .invalidIndex none := by
    rw [hfreed.locate]
    rfl
  refine ⟨?_, fun v => ?_⟩
  · change (Run.lift (m.arena.load p)).exec m = _
    rw [hload]
    rfl
  · change (Run.lift (m.arena.locate p) >>= fun _ => _).exec m = _
    rw [hlocate]
    rfl

/-- What is true of the states that a machine is in one after another. -/
structure Kept (ms : List Machine) : Prop where
  ownership : ∀ m ∈ ms, m.Ownership
  later : ms.Pairwise Later
  fresh : ms.Pairwise fun s t => ∀ h, t.arena.Live h → s.arena.Live h ∨ s.arena.next ≤ h
  dangling : ms.Pairwise fun s t => ∀ k h, s.Owns k h → ¬t.Owns k h → t.Dangling h

theorem Later.fresh {s t : Machine} (hlater : s.Later t) (h : Nat) (hlive : t.arena.Live h) :
    s.arena.Live h ∨ s.arena.next ≤ h := by
  by_cases hlt : h < s.arena.next
  · rcases Arena.live_or_freed hlive.bounds.1 hlt with hs | hs
    · exact .inl hs
    · exact absurd hlive (hlater.freed h hs).not_live
  · exact .inr (Nat.le_of_not_lt hlt)

theorem Later.dangling {s t : Machine} (hlater : s.Later t) (k h : Nat) (howns : s.Owns k h)
    (hnot : ¬t.Owns k h) : t.Dangling h := by
  rcases hlater.owned k h howns with howns | hfreed
  · exact absurd howns hnot
  · exact dangling_of_freed hfreed

theorem ownership_start : start.Ownership where
  current := Nat.zero_lt_one
  parents k frame p h hp := by
    obtain ⟨hk, rfl⟩ := Array.getElem?_eq_some_iff.mp h
    obtain rfl : k = 0 := Nat.lt_one_iff.mp hk
    cases hp
  bindings k frame h id b hb := by
    obtain ⟨hk, rfl⟩ := Array.getElem?_eq_some_iff.mp h
    obtain rfl : k = 0 := Nat.lt_one_iff.mp hk
    cases hb
  live k h howns := by
    obtain ⟨frame, hframe, hmem⟩ := howns
    obtain ⟨hk, rfl⟩ := Array.getElem?_eq_some_iff.mp hframe
    obtain rfl : k = 0 := Nat.lt_one_iff.mp hk
    exact absurd hmem (Array.not_mem_empty h)
  once k frame h := by
    obtain ⟨hk, rfl⟩ := Array.getElem?_eq_some_iff.mp h
    obtain rfl : k = 0 := Nat.lt_one_iff.mp hk
    exact List.Pairwise.nil
  one j k h hj hk := (Nat.lt_one_iff.mp hj.lt_size).trans (Nat.lt_one_iff.mp hk.lt_size).symm
  strings slot h hmem := absurd hmem List.not_mem_nil

theorem kept_of_evolves {α : Type} {x : Run α} (hx : Traced.Evolves Ownership Later x) :
    Kept (x.states start) := by
  obtain ⟨hownership, hlater⟩ := hx start ownership_start
  exact ⟨hownership, hlater, hlater.imp Later.fresh, hlater.imp Later.dangling⟩

end Machine

open Machine in
/-- The invariant of buffers and their owners. It holds along every run of every program, and along
every sequence of operations on the scopes of a machine. Making a buffer gives out the next handle;
leaving a scope frees what it owns and nothing else; and the buffers that the making or the copying
of a struct value makes have no owner, so that they stay. -/
theorem ownership_kept :
    (∀ known fuel p, Kept ((Run.program known fuel p).states start)) ∧
    (∀ ops, Kept ((Run.scopeOps ops).states start)) ∧
    (∀ (m : Machine) values,
      ((m.alloc values).1 = m.arena.next ∧ (m.alloc values).2.arena.next = m.arena.next + 1) ∧
      ((m.own values).1 = m.arena.next ∧ (m.own values).2.arena.next = m.arena.next + 1)) ∧
    (∀ (m : Machine) h, m.arena.Live h → 1 ≤ h ∧ h < m.arena.next) ∧
    (∀ (m : Machine) top, m.frames.back? = some top →
      ∀ h, m.pop.arena.buffer? h = if h ∈ top.owned then none else m.arena.buffer? h) ∧
    (∀ m : Machine, m.Ownership → ∀ t v h, m.arena.next ≤ h →
      (h < ((Run.zeroValue t).after m).arena.next → ((Run.zeroValue t).after m).Static h) ∧
      (h < ((Run.copy v).after m).arena.next → ((Run.copy v).after m).Static h)) := by
  refine ⟨fun known fuel p => ?_, fun ops => ?_, fun m values => ?_, ?_, ?_, ?_⟩
  · exact kept_of_evolves (Run.composed_orderly.program known fuel p).2
  · exact kept_of_evolves (Run.evolves_scopeOps ops)
  · exact ⟨⟨rfl, m.arena.next_alloc values⟩, rfl, m.arena.next_alloc values⟩
  · exact fun m h hlive => hlive.bounds
  · exact fun m top htop h => buffer?_pop htop h
  · intro m hm t v h hnext
    refine ⟨fun hlt => ?_, fun hlt => ?_⟩
    · exact (Run.closed_unowning.zeroValue t).static hm hnext hlt
    · exact (Run.closed_unowning.copy v).static hm hnext hlt

end MiniC
