import Mathlib.Data.List.Chain
import Mathlib.Data.List.Pairwise
import MiniC.Proofs.Names.History
import MiniC.Proofs.Names.Lookup
import MiniC.Proofs.Ownership
import MiniC.Proofs.Ranges.Values

set_option autoImplicit false

/-! # When variables are made

A declaration makes a variable with the handle that comes next, so that no two declarations make
variables of the same handle. A variable stays where it is until its scope is left, or until another
one is made in its place; and nothing becomes a variable that was a buffer before. `Carries` is what
that means for two states of which one comes after the other, `Move` for one step, and `Course` for
all moments of a run. -/

namespace MiniC

namespace Machine

/-! ## Variables of a state and of a later one -/

theorem Ownership.nested {m : Machine} (hm : m.Ownership) : m.Nested where
  current := hm.current
  parents := hm.parents
  global frame hframe := by
    cases hparent : frame.parent with
    | none => rfl
    | some p => exact absurd (hm.parents _ frame p hframe hparent) (Nat.not_lt_zero p)

/-- A variable is a live buffer of one value. -/
theorem Ownership.exists_value {m : Machine} (hm : m.Ownership) {b : Binding} (hb : m.Binds b) :
    ∃ v, m.arena.buffer? b.handle = some #[v] := by
  obtain ⟨k, frame, id, hframe, hmem⟩ := hb
  obtain ⟨-, values, hvalues, hsize⟩ := hm.bindings k frame hframe id b hmem
  obtain ⟨v, rfl⟩ := Array.size_eq_one_iff.mp hsize
  exact ⟨v, hvalues⟩

theorem Ownership.lt_next {m : Machine} (hm : m.Ownership) {b : Binding} (hb : m.Binds b) :
    b.handle < m.arena.next := by
  obtain ⟨v, hv⟩ := hm.exists_value hb
  exact (Arena.Live.bounds (by rw [Arena.Live, hv]; rfl)).2

/-- A name means a variable of some scope. -/
theorem binds_of_lookup {m : Machine} {id : Nat} {b : Binding} (h : m.lookup id = some b) :
    m.Binds b := by
  rw [Machine.lookup] at h
  generalize m.frames.size = steps at h
  generalize m.current = k at h
  induction steps generalizing k with
  | zero => cases h
  | succ steps ih =>
    rw [lookupFrom] at h
    split at h
    · cases h
    · rename_i frame hframe
      split at h
      · rename_i b' hb'
        cases h
        exact ⟨k, frame, id, hframe, mem_of_lookup hb'⟩
      · split at h
        · cases h
        · exact ih _ h

/-- What is true of the variables of a state and a later one: what was there before is a variable
only if it was one; and variables stay until they are freed or something new is made. -/
structure Carries (m t : Machine) : Prop extends Later m t where
  old : ∀ b, t.Binds b → b.handle < m.arena.next → m.Binds b
  stays : ∀ b, m.Binds b → t.Binds b ∨ t.arena.Freed b.handle ∨ m.arena.next < t.arena.next

theorem Carries.refl (m : Machine) : m.Carries m :=
  ⟨.refl m, fun _ hb _ => hb, fun _ => .inl⟩

theorem Carries.trans ⦃m t u : Machine⦄ (h₁ : m.Carries t) (h₂ : t.Carries u) : m.Carries u where
  toLater := h₁.toLater.trans h₂.toLater
  old b hb hlt := h₁.old b (h₂.old b hb (Nat.lt_of_lt_of_le hlt h₁.next)) hlt
  stays b hb := by
    rcases h₁.stays b hb with hb | hfreed | hlt
    · rcases h₂.stays b hb with hb | hfreed | hlt
      · exact .inl hb
      · exact .inr (.inl hfreed)
      · exact .inr (.inr (Nat.lt_of_le_of_lt h₁.next hlt))
    · exact .inr (.inl (h₂.freed _ hfreed))
    · exact .inr (.inr (Nat.lt_of_lt_of_le hlt h₂.next))

/-- What is true of one step, moreover: what a scope owns it keeps, unless it is left. -/
structure Move (m t : Machine) : Prop extends Carries m t where
  retains : ∀ k h, m.Owns k h → t.Owns k h ∨ t.frames.size ≤ k

theorem Move.refl (m : Machine) : m.Move m :=
  ⟨.refl m, fun _ _ => .inl⟩

/-- A step that leaves the scopes alone. -/
theorem Move.of_frames {m t : Machine} (hlater : m.Later t) (hframes : t.frames = m.frames) :
    m.Move t where
  toLater := hlater
  old b hb _ := by
    rw [Binds, hframes] at hb
    exact hb
  stays b hb := by
    rw [Binds, ← hframes] at hb
    exact .inl hb
  retains k h howns := .inl ((owns_congr (by rw [hframes]) h).mpr howns)

/-- A step that makes a buffer, and no variable but one with the handle of that. -/
theorem Move.of_alloc {m t : Machine} {values : Array Value} (hlater : m.Later t)
    (harena : t.arena = (m.arena.alloc values).2)
    (hbinds : ∀ b, t.Binds b → m.Binds b ∨ b.handle = m.arena.next)
    (howns : ∀ k h, m.Owns k h → t.Owns k h) : m.Move t where
  toLater := hlater
  old b hb hlt := (hbinds b hb).resolve_right (Nat.ne_of_lt hlt)
  stays b _ := by
    refine .inr (.inr ?_)
    rw [harena, Arena.next_alloc]
    exact Nat.lt_succ_self _
  retains k h hk := .inl (howns k h hk)

theorem move_own {m : Machine} (hm : m.Ownership) (values : Array Value) :
    m.Move (m.own values).2 :=
  .of_alloc (hm.own values).2 rfl (fun b hb => .inl ((m.makes_own values).binds b hb))
    (m.step_own values).kept

theorem binds_bind {m : Machine} {id : Nat} {t : CType} {v : Value} {b : Binding}
    (hb : (m.bind id t v).Binds b) : m.Binds b ∨ b.handle = m.arena.next := by
  obtain ⟨k, frame, id', hframe, hmem⟩ := hb
  rw [frames_bind, Array.getElem?_modify] at hframe
  split at hframe
  · obtain ⟨before, hbefore, rfl⟩ := Option.map_eq_some_iff.mp hframe
    rcases List.mem_cons.mp hmem with heq | hmem
    · cases heq
      exact .inr rfl
    · exact .inl ((m.makes_own #[v]).binds b
        ⟨k, before, id', hbefore, List.mem_of_mem_filter hmem⟩)
  · exact .inl ((m.makes_own #[v]).binds b ⟨k, frame, id', hframe, hmem⟩)

theorem move_bind {m : Machine} (hm : m.Ownership) (id : Nat) (t : CType) (v : Value) :
    m.Move (m.bind id t v) :=
  .of_alloc (hm.bind id t v).2 rfl (fun _ => binds_bind) (m.step_bind id t v).kept

/-- A scope that is opened has nothing in it, and the others stay. -/
theorem Opens.move {m e : Machine} (h : m.Opens e) (hlater : m.Later e) : m.Move e := by
  obtain ⟨parent, hframes⟩ := h.frames
  have hframe : ∀ (k : Nat) frame, m.frames[k]? = some frame → e.frames[k]? = some frame := by
    intro k frame hframe
    have hk := (Array.getElem?_eq_some_iff.mp hframe).1
    rw [hframes, Array.getElem?_push, if_neg (Nat.ne_of_lt hk)]
    exact hframe
  refine ⟨⟨hlater, fun b hb _ => ?_, fun b hb => ?_⟩, fun k handle howns => ?_⟩
  · obtain ⟨k, frame, id, hk, hmem⟩ := hb
    rw [hframes, Array.getElem?_push] at hk
    split at hk
    · cases hk
      cases hmem
    · exact ⟨k, frame, id, hk, hmem⟩
  · obtain ⟨k, frame, id, hk, hmem⟩ := hb
    exact .inl ⟨k, frame, id, hframe k frame hk, hmem⟩
  · obtain ⟨frame, hk, hmem⟩ := howns
    exact .inl ⟨frame, hframe k frame hk, hmem⟩

/-- A scope is still there after one was left, unless it is the one that was on top. -/
theorem frame_of_leaves {m t : Machine} (hframes : t.frames = m.pop.frames) {k : Nat}
    {frame : Frame} (hframe : m.frames[k]? = some frame) :
    t.frames[k]? = some frame ∨ m.frames.back? = some frame ∧ t.frames.size ≤ k := by
  have hk := (Array.getElem?_eq_some_iff.mp hframe).1
  have hlast : m.frames.size - 1 < m.frames.size := Nat.sub_one_lt (Nat.ne_zero_of_lt hk)
  have htop : m.frames.back? = some m.frames[m.frames.size - 1] := by
    rw [Array.back?_eq_getElem?, Array.getElem?_eq_getElem hlast]
  have hpop : t.frames = m.frames.pop := by rw [hframes, pop_eq htop]
  rw [hpop, Array.size_pop, Array.getElem?_pop]
  by_cases hbelow : k < m.frames.size - 1
  · exact .inl (by rw [if_pos hbelow, hframe])
  · obtain rfl : k = m.frames.size - 1 := by omega
    exact .inr ⟨Array.back?_eq_getElem?.trans hframe, Nat.le_refl _⟩

/-- Leaving a scope frees its variables. -/
theorem move_of_leaves {m t : Machine} (hm : m.Ownership) (hlater : m.Later t)
    (hframes : t.frames = m.pop.frames) (harena : t.arena = m.pop.arena) : m.Move t where
  toLater := hlater
  old b hb _ := by
    obtain ⟨k, frame, id, hframe, hmem⟩ := hb
    refine ⟨k, frame, id, ?_, hmem⟩
    rw [hframes, pop] at hframe
    split at hframe
    · exact hframe
    · rw [Array.getElem?_pop] at hframe
      split at hframe
      · exact hframe
      · cases hframe
  stays b hb := by
    obtain ⟨k, frame, id, hframe, hmem⟩ := hb
    rcases frame_of_leaves hframes hframe with hframe | ⟨hback, -⟩
    · exact .inl ⟨k, frame, id, hframe, hmem⟩
    · rw [harena]
      exact .inr (.inl (hm.freed_of_pop hback (hm.bindings k frame hframe id b hmem).1))
  retains k h howns := by
    obtain ⟨frame, hframe, hmem⟩ := howns
    rcases frame_of_leaves hframes hframe with hframe | ⟨-, hsize⟩
    · exact .inl ⟨frame, hframe, hmem⟩
    · exact .inr hsize

section

variable {states : List Machine} (hownership : ∀ m ∈ states, m.Ownership)
  (hcarries : states.Pairwise Carries) {s m : Machine} (hs : s ∈ states) (hm : m ∈ states)

include hcarries hs hm

/-- Of two states of a run, one comes after the other. -/
theorem carries_or_carries : s.Carries m ∨ m.Carries s := by
  have hsymm : Std.Symm fun s t : Machine => s.Carries t ∨ t.Carries s := ⟨fun _ _ => Or.symm⟩
  have hboth : states.Pairwise fun s t => s.Carries t ∨ t.Carries s := hcarries.imp Or.inl
  exact hboth.forall_of_forall (fun m _ => .inl (.refl m)) hs hm

variable {b : Binding} (hb : s.Binds b)

include hownership hb

/-- A buffer that is made and is no variable has the handle of none, at any time. -/
theorem ne_of_makes {t : Machine} (ht : t ∈ states) (hmakes : m.Makes t) :
    m.arena.next ≠ b.handle := by
  intro heq
  obtain ⟨values, harena⟩ := hmakes.arena
  have hnext : t.arena.next = b.handle + 1 := by rw [harena, Arena.next_alloc, heq]
  have hbuffer : t.arena.buffer? b.handle = some values := by
    rw [harena, Arena.buffer?_alloc, if_pos heq.symm]
  have hnot : ¬t.Binds b := fun hbinds =>
    Nat.ne_of_lt ((hownership m hm).lt_next (hmakes.binds b hbinds)) heq.symm
  -- the variable was there before the buffer, or is there after it
  rcases carries_or_carries hcarries hs ht with hlater | hlater
  · rcases hlater.stays b hb with hbinds | hfreed | hlt
    · exact hnot hbinds
    · rw [hfreed.2.2] at hbuffer
      cases hbuffer
    · have hlive := (hownership s hs).lt_next hb
      omega
  · exact hnot (hlater.old b hb (by omega))

/-- The buffer of a string literal has the handle of no variable, at any time. -/
theorem ne_of_strings {slot handle : Nat} (hstring : (slot, handle) ∈ m.strings) :
    handle ≠ b.handle := by
  rintro rfl
  have hstatic := (hownership m hm).strings slot _ hstring
  obtain ⟨k, frame, id, hframe, hmem⟩ := hb
  have howns : s.Owns k b.handle :=
    ⟨frame, hframe, ((hownership s hs).bindings k frame hframe id b hmem).1⟩
  rcases carries_or_carries hcarries hs hm with hlater | hlater
  · rcases hlater.owned k _ howns with howns | hfreed
    · exact hstatic.2 k howns
    · exact hfreed.not_live hstatic.1
  · exact (hlater.static _ hstatic).2 k howns

end

/-! ## The moments of a run -/

/-- Whether a variable was just made: it is what its name means, its handle is the last that was
given out, and it is owned by the current scope. -/
structure HasMade (m : Machine) (id : Nat) (b : Binding) : Prop where
  lookup : m.lookup id = some b
  last : b.handle + 1 = m.arena.next
  owned : m.Owns m.current b.handle

theorem hasMade_bind {m : Machine} (hm : m.Ownership) (id : Nat) (t : CType) (v : Value) :
    (m.bind id t v).HasMade id ⟨m.arena.next, t⟩ where
  lookup := by rw [lookup_bind hm.nested, if_pos rfl]
  last := by rw [arena_bind, Arena.next_alloc]
  owned := owns_bind.mpr (owns_own.mpr (.inr ⟨rfl, hm.current, rfl⟩))

/-- Whether a declaration makes its variable at a moment. -/
def Declares (moment : Moment Deed Machine) : Prop :=
  ∃ leaf, moment.deed = some (.declare leaf)

/-- What is true of the moments between two states: variables are carried on; scopes keep what they
own from one moment to the next one, unless they are left; and each declaration makes a variable
whose handle was not given out before. -/
structure Course (m : Machine) (moments : List (Moment Deed Machine)) (t : Machine) : Prop where
  ends : ∃ before, m :: moments.map (·.state) = before ++ [t]
  carries : (m :: moments.map (·.state)).Pairwise Carries
  retains : (m :: moments.map (·.state)).IsChain fun s t =>
    ∀ k h, s.Owns k h → t.Owns k h ∨ t.frames.size ≤ k
  makes : ∀ moment ∈ moments, ∀ leaf, moment.deed = some (.declare leaf) →
    ∃ b, moment.state.HasMade leaf.token.id b ∧ m.arena.next ≤ b.handle
  ascends : moments.Pairwise fun first second => Declares first → Declares second →
    first.state.arena.next < second.state.arena.next

theorem Course.nil (m : Machine) : m.Course [] m where
  ends := ⟨[], rfl⟩
  carries := List.pairwise_singleton _ _
  retains := .singleton _
  makes := List.forall_mem_nil _
  ascends := .nil

theorem Course.carries_last {m t : Machine} {moments : List (Moment Deed Machine)}
    (h : m.Course moments t) {s : Machine} (hs : s ∈ m :: moments.map (·.state)) : s.Carries t := by
  obtain ⟨before, hends⟩ := h.ends
  have hcarries := h.carries
  rw [hends] at hs hcarries
  rcases List.mem_append.mp hs with hs | hs
  · exact (List.pairwise_append.mp hcarries).2.2 s hs t (List.mem_singleton_self t)
  · rw [List.mem_singleton.mp hs]
    exact .refl t

theorem Course.append {m t u : Machine} {moments rest : List (Moment Deed Machine)}
    (h : m.Course moments t) (hrest : t.Course rest u) : m.Course (moments ++ rest) u := by
  obtain ⟨before, hends⟩ := h.ends
  have hall : m :: (moments ++ rest).map (·.state) = before ++ t :: rest.map (·.state) := by
    rw [List.map_append, ← List.cons_append, hends, List.append_assoc, List.singleton_append]
  refine ⟨?_, ?_, ?_, ?_, ?_⟩
  · obtain ⟨before', hends'⟩ := hrest.ends
    rw [hall, hends', ← List.append_assoc]
    exact ⟨_, rfl⟩
  · have hcarries := h.carries
    rw [hends, List.pairwise_append] at hcarries
    rw [hall, List.pairwise_append]
    refine ⟨hcarries.1, hrest.carries, fun a ha b hb => ?_⟩
    have hat := hcarries.2.2 a ha t (List.mem_singleton_self t)
    rcases List.mem_cons.mp hb with rfl | hb
    · exact hat
    · exact hat.trans ((List.pairwise_cons.mp hrest.carries).1 b hb)
  · rw [hall, List.isChain_split, ← hends]
    exact ⟨h.retains, hrest.retains⟩
  · refine List.forall_mem_append.mpr ⟨h.makes, fun moment hmoment leaf hdeed => ?_⟩
    obtain ⟨b, hb, hle⟩ := hrest.makes moment hmoment leaf hdeed
    exact ⟨b, hb, Nat.le_trans (h.carries_last List.mem_cons_self).next hle⟩
  · refine List.pairwise_append.mpr ⟨h.ascends, hrest.ascends, ?_⟩
    rintro first hfirst second hsecond - ⟨leaf, hdeed⟩
    obtain ⟨b, hb, hle⟩ := hrest.makes second hsecond leaf hdeed
    have hlast := hb.last
    have hnext := (h.carries_last (List.mem_cons_of_mem _ (List.mem_map_of_mem hfirst))).next
    omega

theorem Course.pairwise_states {m t : Machine} {moments : List (Moment Deed Machine)}
    (h : m.Course moments t) : (m :: moments.map (·.state) ++ [t]).Pairwise Carries := by
  refine List.pairwise_append.mpr ⟨h.carries, List.pairwise_singleton _ _, fun s hs u hu => ?_⟩
  rw [List.mem_singleton.mp hu]
  exact h.carries_last hs

/-- One step at which no variable is declared. -/
theorem Course.step {m t : Machine} (h : m.Move t) {deed? : Option Deed}
    (hdeed : ∀ leaf, deed? ≠ some (.declare leaf)) : m.Course [⟨deed?, t⟩] t where
  ends := ⟨[m], rfl⟩
  carries := List.pairwise_pair.mpr h.toCarries
  retains := List.isChain_pair.mpr h.retains
  makes := List.forall_mem_singleton.mpr fun leaf h => absurd h (hdeed leaf)
  ascends := List.pairwise_singleton _ _

/-- A declaration makes its variable, and says so. -/
theorem Course.declare {m : Machine} (hm : m.Ownership) (leaf : Leaf) (type : CType) (v : Value) :
    let t := m.bind leaf.token.id type v
    m.Course [⟨none, t⟩, ⟨some (.declare leaf), t⟩] t := by
  intro t
  have hmove : m.Move t := move_bind hm leaf.token.id type v
  refine ⟨⟨[m, t], rfl⟩, ?_, ?_, ?_, ?_⟩
  · have hcarries := hmove.toCarries
    simp [hcarries, Carries.refl]
  · refine .cons_cons hmove.retains (List.isChain_pair.mpr (Move.refl t).retains)
  · simp only [List.mem_cons, List.not_mem_nil, or_false]
    rintro moment (rfl | rfl) leaf' hdeed
    · cases hdeed
    · cases hdeed
      exact ⟨_, hasMade_bind hm leaf.token.id type v, Nat.le_refl _⟩
  · refine List.pairwise_pair.mpr ?_
    rintro ⟨leaf', hdeed⟩
    cases hdeed

/-- Declarations that make variables of the same handle are the same. -/
theorem Course.eq_of_handle {m t : Machine} {moments : List (Moment Deed Machine)}
    (h : m.Course moments t) {first second : Moment Deed Machine} (hfirst : first ∈ moments)
    (hsecond : second ∈ moments) {leaf leaf' : Leaf} (hdeed : first.deed = some (.declare leaf))
    (hdeed' : second.deed = some (.declare leaf')) {b b' : Binding}
    (hb : first.state.HasMade leaf.token.id b) (hb' : second.state.HasMade leaf'.token.id b')
    (heq : b.handle = b'.handle) : leaf = leaf' := by
  have hnext : first.state.arena.next = second.state.arena.next := by
    rw [← hb.last, ← hb'.last, heq]
  have hsymm : Std.Symm fun first second : Moment Deed Machine => Declares first →
      Declares second → first.state.arena.next ≠ second.state.arena.next :=
    ⟨fun _ _ hne hsecond hfirst => (hne hfirst hsecond).symm⟩
  have hne := (h.ascends.imp fun hlt hfirst hsecond => Nat.ne_of_lt (hlt hfirst hsecond)).forall
    hfirst hsecond
  by_contra hleaf
  refine hne ?_ ⟨leaf, hdeed⟩ ⟨leaf', hdeed'⟩ hnext
  rintro rfl
  rw [hdeed] at hdeed'
  cases hdeed'
  exact hleaf rfl

/-- A scope keeps what it owns until it is left. -/
theorem owns_of_retains {s : Machine} {states : List Machine} {k h : Nat}
    (hretains : (s :: states).IsChain fun s t =>
      ∀ k h, s.Owns k h → t.Owns k h ∨ t.frames.size ≤ k)
    (howns : s.Owns k h) (hopen : ∀ t ∈ states, k < t.frames.size) : ∀ t ∈ states, t.Owns k h := by
  induction states generalizing s with
  | nil => exact List.forall_mem_nil _
  | cons t rest ih =>
    obtain ⟨hfirst, hrest⟩ := List.isChain_cons_cons.mp hretains
    obtain ⟨ht, hopen⟩ := List.forall_mem_cons.mp hopen
    have howns := (hfirst k h howns).resolve_right (Nat.not_le_of_lt ht)
    exact List.forall_mem_cons.mpr ⟨howns, ih hrest howns hopen⟩

end Machine

/-! ## Runs -/

namespace Run

open Machine

variable {α β : Type}

/-- A run that keeps the invariant of buffers and their owners, and whose moments take their
course. -/
def Proceeds (x : Run α) : Prop :=
  Orderly x ∧ ∀ m : Machine, m.Ownership → m.Course (x.trace m) (x.after m)

theorem Orderly.ownership {x : Run α} (hx : Orderly x) {m : Machine} (hm : m.Ownership) :
    (x.after m).Ownership :=
  (hx.2 m hm).1 _ (Traced.mem_states_after x m)

theorem Orderly.later {x : Run α} (hx : Orderly x) {m : Machine} (hm : m.Ownership) :
    m.Later (x.after m) :=
  (List.pairwise_cons.mp (hx.2 m hm).2).1 _ (List.mem_append_right _ (List.mem_singleton_self _))

theorem proceeds_of_still {x : Run α} (hx : Orderly x)
    (hstill : ∀ m, x.trace m = [] ∧ x.after m = m) : Proceeds x := by
  refine ⟨hx, fun m _ => ?_⟩
  rw [(hstill m).1, (hstill m).2]
  exact .nil m

theorem proceeds_of_change {x : Run α} {g : Machine → Machine} (hx : Orderly x)
    (hchange : ∀ m, x.trace m = [⟨none, g m⟩] ∧ x.after m = g m)
    (hg : ∀ m : Machine, m.Ownership → m.Later (g m) → m.Move (g m)) : Proceeds x := by
  refine ⟨hx, fun m hm => ?_⟩
  have hlater := hx.later hm
  rw [(hchange m).2] at hlater
  rw [(hchange m).1, (hchange m).2]
  exact .step (hg m hm hlater) fun _ h => by cases h

theorem proceeds_bind {x : Run α} {f : α → Run β} (hx : Proceeds x) (hf : ∀ a, Proceeds (f a)) :
    Proceeds (x >>= f) := by
  refine ⟨orderly_bind hx.1 fun a => (hf a).1, fun m hm => ?_⟩
  have hcourse := hx.2 m hm
  have hafter := hx.1.ownership hm
  cases hexec : x.exec m with
  | error stop t =>
    rw [Traced.trace_bind_of_error f hexec, Traced.after_bind_of_error f hexec]
    exact hcourse
  | ok a t =>
    rw [Traced.after_of_ok hexec] at hcourse hafter
    rw [Traced.trace_bind_of_ok f hexec, Traced.after_bind_of_ok f hexec]
    exact hcourse.append ((hf a).2 t hafter)

/-- A run between the opening and the leaving of a scope. -/
theorem course_between {x : Run α} {first last : Option Deed} {enter leave : Machine → Machine}
    (hx : Proceeds x) {m : Machine} (hfirst : ∀ leaf, first ≠ some (.declare leaf))
    (hlast : ∀ leaf, last ≠ some (.declare leaf)) (hopens : m.Opens (enter m))
    (henter : (enter m).Ownership ∧ m.Later (enter m))
    (hleave : (x.after (enter m)).Ownership →
      (x.after (enter m)).Move (leave (x.after (enter m)))) :
    m.Course ((x.between first last enter leave).trace m)
      ((x.between first last enter leave).after m) := by
  rw [Traced.after_between]
  have hcourse := hx.2 _ henter.1
  have hafter := hx.1.ownership henter.1
  exact (Machine.Course.step (hopens.move henter.2) hfirst).append
    (hcourse.append (.step (hleave hafter) hlast))

theorem proceeds_inScope {x : Run α} (hx : Proceeds x) : Proceeds (inScope x) := by
  refine ⟨orderly_inScope hx.1, fun m hm => ?_⟩
  refine course_between hx (fun _ h => by cases h) (fun _ h => by cases h)
    (opens_push m m.current) (hm.push hm.current) fun ht => ?_
  exact move_of_leaves ht (leaves_scope hx.1.1 hm ht).2 rfl rfl

theorem proceeds_inCall {x : Run α} (name : String) (hx : Proceeds x) :
    Proceeds (inCall name x) := by
  refine ⟨orderly_inCall name hx.1, fun m hm => ?_⟩
  rw [after_inCall]
  refine @course_between α x _ _ (·.enterCall name) (·.leaveCall m.current) hx m
    (fun _ h => by cases h) (fun _ h => by cases h) (opens_enterCall m name) ?_ fun ht => ?_
  · exact hm.opens rfl rfl rfl rfl (Nat.zero_lt_of_lt hm.current)
  · exact move_of_leaves ht (leaves_call hx.1.1 hm ht).2 rfl rfl

/-- All runs proceed like that. -/
theorem composed_proceeds : Declaring @Proceeds where
  pure a := proceeds_of_still (composed_orderly.pure a) fun _ => ⟨rfl, rfl⟩
  stop stop hstop := proceeds_of_still (composed_orderly.stop stop hstop) fun _ => ⟨rfl, rfl⟩
  anyStop stop hbounds hlabel :=
    proceeds_of_still (composed_orderly.anyStop stop hbounds hlabel) fun _ => ⟨rfl, rfl⟩
  missingLabel name pos :=
    proceeds_of_still (composed_orderly.missingLabel name pos) fun _ => ⟨rfl, rfl⟩
  observe _ hf := proceeds_bind (proceeds_of_still orderly_get fun _ => ⟨rfl, rfl⟩) fun m =>
    hf m fun _ => proceeds_of_still (orderly_throw _) fun _ => ⟨rfl, rfl⟩
  observeName _ _ _ hf := proceeds_bind (proceeds_of_still orderly_get fun _ => ⟨rfl, rfl⟩) hf
  bind := proceeds_bind
  alloc values := proceeds_of_change (composed_orderly.alloc values) (fun _ => ⟨rfl, rfl⟩)
    fun _ _ hlater => .of_frames hlater rfl
  keepString slot values := proceeds_of_change (composed_orderly.keepString slot values)
    (fun _ => ⟨rfl, rfl⟩) fun _ _ hlater => .of_frames hlater rfl
  put p v := proceeds_of_change (composed_orderly.put p v) (fun _ => ⟨rfl, rfl⟩)
    fun _ _ hlater => .of_frames hlater rfl
  beside f hf hfree := by
    refine proceeds_of_change (composed_orderly.beside f hf hfree) (fun _ => ⟨rfl, rfl⟩)
      fun m _ hlater => .of_frames hlater ?_
    obtain ⟨records, output, events, -, h⟩ := hf m
    rw [h]
  declares f := proceeds_of_change (composed_orderly.declares f) (fun _ => ⟨rfl, rfl⟩)
    fun _ _ hlater => .of_frames hlater rfl
  register f hf hfree := by
    refine proceeds_of_change (g := f) (composed_orderly.register f hf hfree)
      (fun _ => ⟨rfl, rfl⟩) fun m _ hlater => .of_frames hlater ?_
    obtain ⟨functions, prototypes, h⟩ := hf m
    rw [h]
  own values := proceeds_of_change (composed_orderly.own values) (fun _ => ⟨rfl, rfl⟩)
    fun _ hm _ => move_own hm values
  bindName id t v := proceeds_of_change (composed_orderly.bindName id t v) (fun _ => ⟨rfl, rfl⟩)
    fun _ hm _ => move_bind hm id t v
  introduce name t v := ⟨composed_orderly.introduce name t v, fun _ hm => .declare hm name t v⟩
  use leaf := ⟨composed_orderly.use leaf, fun m _ => .step (.refl m) fun _ h => by cases h⟩
  located pos hx := ⟨composed_orderly.located pos hx.1, fun m hm => by
    rw [located, Traced.after_mapError]
    exact hx.2 m hm⟩
  inScope := proceeds_inScope
  inCall := proceeds_inCall

end Run

end MiniC
