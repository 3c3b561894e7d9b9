import MiniC.Proofs.Copies.Sound
import MiniC.Proofs.Rows.Made

set_option autoImplicit false

/-! # What no expression can reach

What was made with a new array is not named by anything that is held elsewhere, no variable and no
string literal stands there, and what is made later is somewhere else. So no expression can look at
it or change it, until the array gets a name. -/

namespace MiniC

namespace Machine

/-- What is true of the string literals of a state and a later one: those that were not there before
have been made since. -/
structure Quotes (m t : Machine) : Prop where
  next : m.arena.next ≤ t.arena.next
  strings : ∀ e ∈ t.strings, e ∈ m.strings ∨ m.arena.next ≤ e.2

theorem quotes_of_strings {m t : Machine} (hnext : m.arena.next ≤ t.arena.next)
    (hstrings : t.strings = m.strings) : m.Quotes t :=
  ⟨hnext, fun _ he => .inl (hstrings ▸ he)⟩

theorem Quotes.refl (m : Machine) : m.Quotes m :=
  quotes_of_strings (Nat.le_refl _) rfl

theorem Quotes.trans ⦃m t u : Machine⦄ (h : m.Quotes t) (h' : t.Quotes u) : m.Quotes u where
  next := Nat.le_trans h.next h'.next
  strings e he := by
    rcases h'.strings e he with he | hle
    · exact h.strings e he
    · exact .inr (Nat.le_trans h.next hle)

theorem quotes_pop (m : Machine) : m.Quotes m.pop := by
  unfold pop
  split
  · exact .refl m
  · exact quotes_of_strings (Nat.le_of_eq (Arena.next_freeAll _ _).symm) rfl

end Machine

namespace Run

open Machine

variable {α : Type} {x : Run α}

/-- Whether all string literals that come about in a run are made then. -/
abbrev Quoting (x : Run α) : Prop :=
  Traced.Evolves (fun _ => True) Quotes x

theorem quoting_of_still (hstill : ∀ m, x.trace m = [] ∧ x.after m = m) : Quoting x :=
  Traced.evolves_of_still Quotes.refl hstill

theorem quoting_of_change {g : Machine → Machine}
    (hchange : ∀ m, (x.trace m).map (·.state) = [g m] ∧ x.after m = g m)
    (hg : ∀ m : Machine, m.Quotes (g m)) : Quoting x :=
  Traced.evolves_of_change Quotes.refl hchange fun m _ => ⟨trivial, hg m⟩

theorem quoting_between {first last : Option Deed} {enter leave : Machine → Machine}
    (hx : Quoting x) (henter : ∀ m : Machine, m.Quotes (enter m))
    (hleave : ∀ m : Machine, m.Quotes (leave m)) : Quoting (x.between first last enter leave) :=
  fun m _ => Traced.evolves_between Quotes.refl Quotes.trans hx trivial ⟨trivial, henter m⟩
    fun _ => ⟨trivial, hleave _⟩

theorem quoting_get : Quoting (get : Run Machine) :=
  quoting_of_still fun _ => ⟨rfl, rfl⟩

theorem quoting_throw (stop : Stop) : Quoting (throw stop : Run α) :=
  quoting_of_still fun _ => ⟨rfl, rfl⟩

/-- All runs make the string literals that come about in them. -/
theorem composed_quoting : Declaring @Quoting where
  pure _ := quoting_of_still fun _ => ⟨rfl, rfl⟩
  stop _ _ := quoting_throw _
  anyStop stop _ _ := quoting_throw stop
  missingLabel _ _ := quoting_throw _
  bind hx hf := Traced.evolves_bind Quotes.trans hx hf
  observe _ hf := Traced.evolves_bind Quotes.trans quoting_get fun m =>
    hf m fun _ => quoting_throw _
  observeName _ _ _ hf := Traced.evolves_bind Quotes.trans quoting_get hf
  alloc values := quoting_of_change (fun _ => ⟨rfl, rfl⟩) fun m =>
    quotes_of_strings (m.arena.grows_alloc values).next rfl
  keepString slot values := quoting_of_change (fun _ => ⟨rfl, rfl⟩) fun m => by
    refine ⟨(m.arena.grows_alloc values).next, fun e he => ?_⟩
    rcases List.mem_cons.mp he with rfl | he
    · exact .inr (Nat.le_refl _)
    · exact .inl he
  put p v := quoting_of_change (fun _ => ⟨rfl, rfl⟩) fun m =>
    quotes_of_strings (m.arena.grows_put p v).next rfl
  beside f hf _ := quoting_of_change (fun _ => ⟨rfl, rfl⟩) fun m => by
    obtain ⟨records, output, events, -, h⟩ := hf m
    rw [h]
    exact quotes_of_strings (Nat.le_refl _) rfl
  declares _ := quoting_of_change (fun _ => ⟨rfl, rfl⟩) fun _ =>
    quotes_of_strings (Nat.le_refl _) rfl
  register f hf _ := quoting_of_change (fun _ => ⟨rfl, rfl⟩) fun m => by
    obtain ⟨functions, prototypes, h⟩ := hf m
    change m.Quotes (f m)
    rw [h]
    exact quotes_of_strings (Nat.le_refl _) rfl
  own values := quoting_of_change (fun _ => ⟨rfl, rfl⟩) fun m =>
    quotes_of_strings (m.arena.grows_alloc values).next rfl
  bindName _ _ v := quoting_of_change (fun _ => ⟨rfl, rfl⟩) fun m =>
    quotes_of_strings (m.arena.grows_alloc #[v]).next rfl
  use _ := quoting_of_change (fun _ => ⟨rfl, rfl⟩) Quotes.refl
  introduce _ _ v := by
    refine Traced.evolves_bind Quotes.trans (quoting_of_change (fun _ => ⟨rfl, rfl⟩) fun m => ?_)
      fun _ => quoting_of_change (fun _ => ⟨rfl, rfl⟩) Quotes.refl
    exact quotes_of_strings (m.arena.grows_alloc #[v]).next rfl
  located _ hx := Traced.evolves_mapError _ hx
  inScope hx := quoting_between hx (fun m => quotes_of_strings (Nat.le_refl _) rfl) quotes_pop
  inCall _ hx := Traced.evolves_bind Quotes.trans quoting_get fun _ =>
    quoting_between hx (fun m => quotes_of_strings (Nat.le_refl _) rfl) fun m =>
      (quotes_pop m).trans (quotes_of_strings (Nat.le_refl _) rfl)

/-- A run frees nothing that was live when it began: what it frees is owned by the scopes that it
opens itself. -/
theorem Orderly.live (hx : Orderly x) {m : Machine} (hm : m.Ownership) {h : Nat}
    (hlive : m.arena.Live h) : (x.after m).arena.Live h := by
  by_cases howned : ∃ k, m.Owns k h
  · obtain ⟨k, howns⟩ := howned
    have hkept := ((hx.1 m).2 m (Traced.mem_states_start x m)).kept k h howns.lt_size howns
    exact (hx.ownership hm).live k h hkept
  · exact ((hx.later hm).static h ⟨hlive, not_exists.mp howned⟩).1

/-- A run spares what it spares from its begin to its end. -/
theorem Parallel.spares_after {D : Domain} {y : Run α} {Q : α → Prop} (h : Parallel D x y Q)
    {m : Machine} (hm : D.Good m) (hmeets : ∀ moment ∈ x.trace m, D.Meets moment) :
    D.Spares m (x.after m) := by
  obtain ⟨before, hlast⟩ := (h.together m hm hmeets).last
  have hspares := (h.fares m hm _ List.prefix_rfl hmeets).spares
  rw [hlast] at hspares
  cases before with
  | nil =>
    rw [← (List.cons.inj hlast).1]
    exact .refl m
  | cons first before =>
    rw [← (List.cons.inj hlast).1] at hspares
    exact (List.pairwise_cons.mp hspares).1 _ (List.mem_append_right _ (List.mem_singleton_self _))

end Run

/-! ## What was made between two states -/

/-- Whether a location was made between two states. -/
def Location.MadeBetween (m m₁ : Machine) (l : Location) : Prop :=
  l.Made m₁ ∧ ¬l.Made m

/-- All runs after a state that meet with nothing of what was made between an earlier state and
that one. -/
def Domain.outside (m m₁ : Machine) : Domain where
  states t := t.Ownership ∧ m₁.Spans t ∧
    (∀ b, t.Binds b → ¬(Location.buffer b.handle).MadeBetween m m₁) ∧
    ∀ e ∈ t.strings, ¬(Location.buffer e.2).MadeBetween m m₁
  uses _ _ := True
  occurs _ := True
  targets _ := True
  ints _ := True
  pointers _ := True
  locations l := ¬l.MadeBetween m m₁
  shown l := ¬l.MadeBetween m m₁

namespace Domain

variable {m m₁ t : Machine}

theorem outside_admits (m m₁ : Machine) (known : Nat → Option CType) :
    (outside m m₁).Admits known known where
  within _ _ := trivial
  computed _ _ _ _ _ _ := trivial
  quoted _ _ _ _ _ := trivial
  sized _ _ _ _ _ _ _ _ := trivial
  printed _ _ _ _ := trivial
  distance _ _ _ _ _ := trivial
  held _ _ _ _ := trivial
  yielded _ _ _ _ _ _ _ _ _ := trivial
  types _ _ := rfl
  target _ _ _ _ := trivial
  null h := h.2 (Nat.succ_pos _)
  buffers t _ ht _ _ h := Nat.lt_irrefl t.arena.next (ht.2.1 _ h.1)
  records t _ ht _ h := Nat.lt_irrefl t.records.all.size (ht.2.1 _ h.1)
  bound _ _ _ b _ _ ht _ h := ht.2.2.1 b (Machine.binds_of_lookup h)
  kept _ _ _ ht h := ht.2.2.2 _ (mem_of_lookup h)
  shows _ h := h
  seen _ _ b ht h := ht.2.2.1 b (Machine.binds_of_lookup h)

/-- When an array was just made in a sound state, nothing that is held elsewhere names what was made
with it. -/
theorem good_outside (hm : m.Sound) (hownership : m.Ownership) (hbuilds : m.Builds m₁)
    (hownership₁ : m₁.Ownership) : (outside m m₁).Good m₁ where
  state := by
    refine ⟨hownership₁, .refl m₁, fun b hb h => ?_, fun e he h => ?_⟩
    · exact h.2 (hownership.lt_next (hbuilds.binds b hb))
    · rw [hbuilds.strings] at he
      exact h.2 (hownership.strings e.1 e.2 he).1.bounds.2
  held v hv := by
    -- what is held outside was held before, and so names what was made before
    have hold : m.Holds v := by
      rcases hv with ⟨handle, values, hshown, hbuffer, hmem⟩ | ⟨id, record, hshown, hrecord, hmem⟩
      · have hlive : m₁.arena.Live handle := by
          rw [Arena.Live, hbuffer]
          rfl
        have hmade : (Location.buffer handle).Made m :=
          by_contra fun hnot => hshown ⟨hlive.bounds.2, hnot⟩
        exact .inl ⟨handle, values, (hbuilds.same _ hmade).symm.trans hbuffer, hmem⟩
      · have hmade : (Location.record id).Made m :=
          by_contra fun hnot => hshown ⟨(Array.getElem?_eq_some_iff.mp hrecord).1, hnot⟩
        have hsame := (hbuilds.same _ hmade).symm.trans hrecord
        exact .inr ⟨record, Array.mem_of_getElem? hsame, hmem⟩
    refine fits_of (fun _ _ => trivial) fun l hl h => h.2 ?_
    exact (fits_upTo.mpr (hm v hold)).location hl
  functions _ _ _ _ := trivial

/-- A write into a buffer that was made between the two states cannot be noticed. -/
theorem outside_put (ht : (outside m m₁).Good t) {p : Pointer}
    (hp : (Location.buffer p.buffer).MadeBetween m m₁) (v : Value) :
    (outside m m₁).Good { t with arena := t.arena.put p v } := by
  obtain ⟨hownership, hspans, hbinds, hstrings⟩ := ht.state
  have hbuffer : p.buffer ≠ 0 := by
    intro hzero
    refine hp.2 ?_
    rw [hzero]
    exact Nat.succ_pos _
  refine ht.next ⟨(hownership.put p v).1, ?_, hbinds, hstrings⟩ (fun w hw => .inr ?_) rfl
  · intro l hl
    cases l with
    | buffer handle =>
      exact Nat.lt_of_lt_of_eq (hspans (.buffer handle) hl) (Arena.next_put ..).symm
    | record id => exact hspans (.record id) hl
  · rcases hw with ⟨handle, values, hshown, hvalues, hmem⟩ | hw
    · refine .inl ⟨handle, values, hshown, ?_, hmem⟩
      rw [← hvalues]
      refine (Arena.buffer?_put_of_ne t.arena p v ?_ hbuffer).symm
      rintro rfl
      exact hshown hp
    · exact .inr hw

/-- The evaluation of an item leaves what was made between the two states as it is. -/
theorem outside_itemValue (known : Nat → Option CType) (fuel : Nat) (ht : (outside m m₁).Good t)
    (elem : CType) (item : Expr) :
    let x := Run.itemValue (Run.eval ⟨known, Run.call known fuel⟩) elem item
    (outside m m₁).Good (x.after t) ∧
      ∀ l : Location, l.MadeBetween m m₁ → l.Same t (x.after t) := by
  intro x
  have hownership : t.Ownership := ht.state.1
  have hproceeds : Run.Proceeds x :=
    let hctx := Run.composed_proceeds.context known fuel
    hctx.toClosed.itemValue hctx.items elem trivial
  have hquoting : Run.Quoting x :=
    let hctx := Run.composed_quoting.context known fuel
    hctx.toClosed.itemValue hctx.items elem trivial
  have hspanning : Run.Spanning x :=
    let hctx := Run.composed_spanning.context known fuel
    hctx.toClosed.itemValue hctx.items elem trivial
  obtain ⟨-, hspans, hbinds, hstrings⟩ := ht.state
  -- Every state on the way is good: what was made between the two states is neither bound to a name
  -- nor a string of a literal, and stays so.
  have hmeets : ∀ moment ∈ x.trace t, (outside m m₁).Meets moment := by
    intro moment hmoment
    have hmem : moment.state ∈ (x.trace t).map (·.state) := List.mem_map_of_mem hmoment
    have hcarries : t.Carries moment.state :=
      (List.pairwise_cons.mp (hproceeds.2 t hownership).carries).1 _ hmem
    have hquotes : t.Quotes moment.state :=
      (List.pairwise_cons.mp (hquoting t trivial).2).1 _ (List.mem_append_left _ hmem)
    have hspanned : t.Spans moment.state :=
      (List.pairwise_cons.mp (hspanning t trivial).2).1 _ (List.mem_append_left _ hmem)
    refine ⟨⟨?_, hspans.trans hspanned, fun b hb h => ?_, fun e he h => ?_⟩, fun _ _ => trivial⟩
    · exact (hproceeds.1.2 t hownership).1 _ (Traced.mem_states_of_mem_trace hmoment)
    · exact hbinds b (hcarries.old b hb (hspans _ h.1)) h
    · rcases hquotes.strings e he with he | hle
      · exact hstrings e he h
      · exact Nat.not_lt_of_le hle (hspans _ h.1)
  have hstays : Run.Stays (outside m m₁) x (outside m m₁).Fits :=
    Run.parallel_itemValue (Run.twins (outside_admits m m₁ known) fuel) elem fun _ _ => trivial
  have hspares := hstays.spares_after ht hmeets
  refine ⟨hstays.good_after ht hmeets, fun l hl => ?_⟩
  cases l with
  | record id => exact hspares.records id (hspans _ hl.1) (not_not.mpr hl)
  | buffer handle =>
    -- A buffer could also have been given back, but an evaluation gives back none that was there
    -- before it.
    rcases hspares.buffers handle (hspans _ hl.1) (not_not.mpr hl) with hsame | hnone
    · exact hsame
    · cases hbuffer : t.arena.buffer? handle with
      | none => exact hnone.trans hbuffer.symm
      | some values =>
        have hlive : t.arena.Live handle := by
          rw [Arena.Live, hbuffer]
          rfl
        have hlater := hproceeds.1.live hownership hlive
        rw [Arena.Live, hnone] at hlater
        cases hlater

end Domain

end MiniC
