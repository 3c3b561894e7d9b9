import MiniC.Proofs.Constants.Variables
import MiniC.Proofs.Copies.Belongings
import MiniC.Proofs.Ranges

set_option autoImplicit false

/-! # Nothing is named before it is made

In every state of a run, the buffers and struct values that are named by what it holds were made.
What is made stays made. So all that a run meets with up to a state belongs to the domain of what is
made there, and with it what the state holds. -/

namespace MiniC

namespace Machine

/-! ## What is made stays made -/

/-- Whether all that was made in a state is made in another one, too. -/
def Spans (m m' : Machine) : Prop :=
  ∀ l : Location, l.Made m → l.Made m'

theorem Spans.refl (m : Machine) : m.Spans m :=
  fun _ => id

theorem Spans.trans ⦃m t u : Machine⦄ (h : m.Spans t) (h' : t.Spans u) : m.Spans u :=
  fun l hl => h' l (h l hl)

theorem spans_of_le {m m' : Machine} (harena : m.arena.next ≤ m'.arena.next)
    (hrecords : m.records.all.size ≤ m'.records.all.size) : m.Spans m' := by
  intro l hl
  cases l with
  | buffer handle => exact Nat.lt_of_lt_of_le hl harena
  | record id => exact Nat.lt_of_lt_of_le hl hrecords

theorem spans_pop (m : Machine) : m.Spans m.pop := by
  unfold pop
  split
  · exact .refl m
  · exact spans_of_le (Nat.le_of_eq (Arena.next_freeAll _ _).symm) (Nat.le_refl _)

/-! ## Variables and scopes -/

theorem exists_mem_of_lookupFrom {frames : Array Frame} {id steps i : Nat} {b : Binding}
    (h : lookupFrom frames id steps i = some b) :
    ∃ (k : Nat) (frame : Frame), frames[k]? = some frame ∧ (id, b) ∈ frame.bindings := by
  induction steps generalizing i with
  | zero => cases h
  | succ steps ih =>
    rw [lookupFrom] at h
    split at h
    · cases h
    · rename_i frame hframe
      split at h
      · rename_i hlookup
        cases h
        exact ⟨i, frame, hframe, mem_of_lookup hlookup⟩
      · split at h
        · cases h
        · exact ih h

/-- The buffer of a variable was made. -/
theorem Ownership.made_of_lookup {m : Machine} (hm : m.Ownership) {id : Nat} {b : Binding}
    (h : m.lookup id = some b) : (Location.buffer b.handle).Made m := by
  obtain ⟨k, frame, hframe, hb⟩ := exists_mem_of_lookupFrom h
  obtain ⟨-, values, hvalues, -⟩ := hm.bindings k frame hframe id b hb
  exact (Arena.Live.bounds (by rw [Arena.Live, hvalues]; rfl)).2

/-- The buffer of a string literal was made. -/
theorem Ownership.made_of_string {m : Machine} (hm : m.Ownership) {slot handle : Nat}
    (h : m.strings.lookup slot = some handle) : (Location.buffer handle).Made m :=
  (hm.strings slot handle (mem_of_lookup h)).1.bounds.2

end Machine

/-! ## Runs -/

namespace Run

open Machine

/-- Whether all that is made at some point of a run stays made. -/
abbrev Spanning {α : Type} (x : Run α) : Prop :=
  Traced.Evolves (fun _ => True) Spans x

variable {α : Type} {x : Run α}

theorem spanning_of_still (hstill : ∀ m, x.trace m = [] ∧ x.after m = m) : Spanning x :=
  Traced.evolves_of_still Spans.refl hstill

theorem spanning_of_change {g : Machine → Machine}
    (hchange : ∀ m, (x.trace m).map (·.state) = [g m] ∧ x.after m = g m)
    (hg : ∀ m : Machine, m.Spans (g m)) : Spanning x :=
  Traced.evolves_of_change Spans.refl hchange fun m _ => ⟨trivial, hg m⟩

theorem spanning_between {first last : Option Deed} {enter leave : Machine → Machine}
    (hx : Spanning x) (henter : ∀ m : Machine, m.Spans (enter m))
    (hleave : ∀ m : Machine, m.Spans (leave m)) : Spanning (x.between first last enter leave) :=
  fun m _ => Traced.evolves_between Spans.refl Spans.trans hx trivial ⟨trivial, henter m⟩
    fun _ => ⟨trivial, hleave _⟩

theorem spanning_get : Spanning (get : Run Machine) :=
  spanning_of_still fun _ => ⟨rfl, rfl⟩

theorem spanning_throw (stop : Stop) : Spanning (throw stop : Run α) :=
  spanning_of_still fun _ => ⟨rfl, rfl⟩

/-- All runs forget nothing. -/
theorem composed_spanning : Declaring @Spanning where
  pure _ := spanning_of_still fun _ => ⟨rfl, rfl⟩
  stop _ _ := spanning_throw _
  anyStop stop _ _ := spanning_throw stop
  missingLabel _ _ := spanning_throw _
  bind hx hf := Traced.evolves_bind Spans.trans hx hf
  observe _ hf := Traced.evolves_bind Spans.trans spanning_get fun m =>
    hf m fun _ => spanning_throw _
  observeName _ _ _ hf := Traced.evolves_bind Spans.trans spanning_get hf
  alloc values := spanning_of_change (fun _ => ⟨rfl, rfl⟩) fun m =>
    spans_of_le (m.arena.grows_alloc values).next (Nat.le_refl _)
  keepString _ values := spanning_of_change (fun _ => ⟨rfl, rfl⟩) fun m =>
    spans_of_le (m.arena.grows_alloc values).next (Nat.le_refl _)
  put p v := spanning_of_change (fun _ => ⟨rfl, rfl⟩) fun m =>
    spans_of_le (m.arena.grows_put p v).next (Nat.le_refl _)
  beside f hf _ := spanning_of_change (fun _ => ⟨rfl, rfl⟩) fun m => by
    obtain ⟨records, output, events, hrecords, h⟩ := hf m
    rw [h]
    exact spans_of_le (Nat.le_refl _) hrecords
  declares _ := spanning_of_change (fun _ => ⟨rfl, rfl⟩) fun _ =>
    spans_of_le (Nat.le_refl _) (Nat.le_refl _)
  register f hf _ := spanning_of_change (fun _ => ⟨rfl, rfl⟩) fun m => by
    obtain ⟨functions, prototypes, h⟩ := hf m
    change m.Spans (f m)
    rw [h]
    exact spans_of_le (Nat.le_refl _) (Nat.le_refl _)
  own values := spanning_of_change (fun _ => ⟨rfl, rfl⟩) fun m =>
    spans_of_le (m.arena.grows_alloc values).next (Nat.le_refl _)
  bindName _ _ v := spanning_of_change (fun _ => ⟨rfl, rfl⟩) fun m =>
    spans_of_le (m.arena.grows_alloc #[v]).next (Nat.le_refl _)
  use _ := spanning_of_change (fun _ => ⟨rfl, rfl⟩) Spans.refl
  introduce _ _ v := by
    refine Traced.evolves_bind Spans.trans (spanning_of_change (fun _ => ⟨rfl, rfl⟩) fun m => ?_)
      fun _ => spanning_of_change (fun _ => ⟨rfl, rfl⟩) Spans.refl
    exact spans_of_le (m.arena.grows_alloc #[v]).next (Nat.le_refl _)
  located _ hx := Traced.evolves_mapError _ hx
  inScope hx := spanning_between hx (fun _ _ => id) spans_pop
  inCall _ hx := Traced.evolves_bind Spans.trans spanning_get fun _ =>
    spanning_between hx (fun _ _ => id) spans_pop

end Run

/-! ## What is named in a run -/

/-- All states before one, and nothing that is not made there. -/
def Domain.upTo (m : Machine) : Domain where
  states t := t.Ownership ∧ t.Spans m
  uses _ _ := True
  occurs _ := True
  targets _ := True
  ints _ := True
  pointers _ := True
  locations l := l.Made m
  shown _ := True

theorem Domain.upTo_admits (m : Machine) (known : Nat → Option CType) :
    (upTo m).Admits known known where
  within _ _ := trivial
  computed _ _ _ _ _ _ := trivial
  quoted _ _ _ _ _ := trivial
  sized _ _ _ _ _ _ _ _ := trivial
  printed _ _ _ _ := trivial
  distance _ _ _ _ _ := trivial
  held _ _ _ _ := trivial
  yielded _ _ _ _ _ _ _ _ _ := trivial
  types _ _ := rfl
  target _ _ _ _ := trivial
  null := Nat.succ_pos _
  buffers t t' _ ht' hmakes := by
    obtain ⟨values, harena⟩ := hmakes.arena
    refine ht'.2 (.buffer _) ?_
    rw [Location.Made, harena, Arena.next_alloc]
    exact Nat.lt_succ_self _
  records _ _ _ ht := ht.2 (.record _)
    (Nat.lt_of_lt_of_eq (Nat.lt_succ_self _) (Array.size_push ..).symm)
  bound _ _ _ _ _ _ ht _ h := ht.2 _ (ht.1.made_of_lookup h)
  kept _ _ _ ht h := ht.2 _ (ht.1.made_of_string h)
  shows _ _ := trivial
  seen _ _ _ _ _ := trivial

theorem Domain.fits_upTo {m : Machine} {v : Value} : (upTo m).Fits v ↔ m.Knows v := by
  cases v <;> exact Iff.rfl

theorem Domain.good_upTo {m t : Machine} (hm : m.Sound) (hownership : m.Ownership)
    (hspans : m.Spans t) : (upTo t).Good m where
  state := ⟨hownership, hspans⟩
  held v hv := by
    refine Domain.fits_of (fun _ _ => trivial) fun l hl => hspans l ?_
    exact (Domain.fits_upTo.mpr (hm v hv.holds)).location hl
  functions _ _ _ _ := trivial

theorem Domain.sound_of_good {m : Machine} (h : (upTo m).Good m) : m.Sound :=
  fun v hv => Domain.fits_upTo.mp (h.held v (hv.holdsIn fun _ => trivial))

/-- A run that begins in a sound state passes through sound states only. -/
theorem Run.sound_of_mem_states {α : Type} {x : Run α} {Q : α → Prop}
    (hx : ∀ u, Stays (.upTo u) x Q) (hevolves : Traced.Evolves Machine.Ownership Machine.Later x)
    (hspanning : Spanning x) {m t : Machine} (hm : m.Sound) (hownership : m.Ownership)
    (ht : t ∈ x.states m) : t.Sound := by
  have howns := (hevolves m hownership).1
  have hspans := (hspanning m trivial).2
  rw [Traced.states, List.cons_append] at ht hspans
  obtain ⟨hfirst, hrest⟩ := List.pairwise_cons.mp hspans
  rcases List.mem_cons.mp ht with rfl | ht
  · exact hm
  have hgood : (Domain.upTo t).Good m := Domain.good_upTo hm hownership (hfirst t ht)
  rcases List.mem_append.mp ht with ht | ht
  · obtain ⟨moment, hmoment, rfl⟩ := List.mem_map.mp ht
    obtain ⟨before, later, htrace⟩ := List.append_of_mem hmoment
    have hbegins : before ++ [moment] <+: x.trace m := ⟨later, by simp [htrace]⟩
    have hupTo : ∀ u ∈ before ++ [moment], u.state.Spans moment.state := by
      rw [htrace] at hrest
      intro u hu
      rcases List.mem_append.mp hu with hu | hu
      · simp only [List.map_append, List.map_cons, List.append_assoc, List.cons_append] at hrest
        exact (List.pairwise_append.mp hrest).2.2 _ (List.mem_map_of_mem hu) _ List.mem_cons_self
      · rw [List.mem_singleton.mp hu]
        exact .refl _
    have hfares := (hx _).fares m hgood _ hbegins fun u hu =>
      ⟨⟨?_, hupTo u hu⟩, fun _ _ => trivial⟩
    · exact Domain.sound_of_good
        (hfares.good moment (List.mem_append_right _ (List.mem_singleton_self _)))
    exact howns _ (Traced.mem_states_of_mem_trace (hbegins.subset hu))
  · rw [List.mem_singleton] at ht
    subst ht
    refine Domain.sound_of_good
      ((hx _).good_after hgood fun u hu => ⟨⟨?_, ?_⟩, fun _ _ => trivial⟩)
    · exact howns _ (Traced.mem_states_of_mem_trace hu)
    · exact (List.pairwise_append.mp hrest).2.2 _ (List.mem_map_of_mem hu) _
        (List.mem_singleton_self _)

/-- What an expression has as its value was made by then. -/
theorem Run.knows_of_eval {known : Nat → Option CType} {fuel : Nat} {e : Expr} {m t : Machine}
    {v : Value} (hm : m.Sound) (hownership : m.Ownership)
    (h : (eval ⟨known, call known fuel⟩ e).exec m = .ok v t) : t.Knows v := by
  have howns := (((composed_orderly.context known fuel).eval e).2 m hownership).1
  have hspans := ((composed_spanning.context known fuel).eval e m trivial).2
  rw [Traced.states, Traced.after_of_ok h] at hspans
  have hupTo : ∀ u ∈ m :: ((eval ⟨known, call known fuel⟩ e).trace m).map (·.state), u.Spans t :=
    fun u hu => (List.pairwise_append.mp hspans).2.2 u hu t (List.mem_singleton_self t)
  have htwins := twins (Domain.upTo_admits t known) fuel
  have htogether := (parallel_eval htwins e fun _ _ => trivial).together m
    (Domain.good_upTo hm hownership (hupTo m List.mem_cons_self)) fun _ hmoment =>
      ⟨⟨howns _ (Traced.mem_states_of_mem_trace hmoment),
        hupTo _ (List.mem_cons_of_mem _ (List.mem_map_of_mem hmoment))⟩, fun _ _ => trivial⟩
  exact Domain.fits_upTo.mp (htogether.result v t h).fits

/-- In every state of a run, all that is named was made, and the scopes are nested; and what an
expression has as its value was made when it has been evaluated there. -/
theorem Program.sound_of_visits {p : Program} {known : Nat → Option CType} {m : Machine}
    (hm : p.Visits known m) :
    m.Sound ∧ m.Nested ∧ ∀ fuel e v t,
      (Run.eval ⟨known, Run.call known fuel⟩ e).exec m = .ok v t → t.Knows v := by
  obtain ⟨fuel, hm⟩ := hm
  have hevolves := (Run.composed_orderly.program known fuel p).2
  have hownership := (hevolves .start Machine.ownership_start).1 m hm
  have hsound : m.Sound := Run.sound_of_mem_states
    (fun u => Run.parallel_program (Domain.upTo_admits u known) fuel fun _ _ => trivial) hevolves
    (Run.composed_spanning.program known fuel p) (fun v hv => absurd hv (Machine.not_holds_start v))
    Machine.ownership_start hm
  exact ⟨hsound, hownership.nested, fun _ _ _ _ => Run.knows_of_eval hsound hownership⟩

end MiniC
