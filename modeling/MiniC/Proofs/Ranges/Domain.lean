import MiniC.Proofs.Occurrences
import MiniC.Proofs.Ranges.Held

set_option autoImplicit false

/-! # Runs in a domain

A domain says which states a run may be in, in which of them it may look up a name, of which
expressions and type names its program consists, which variables are written by their names, which
integers and pointers there may be, which buffers and struct values may be named, and which may be
looked at. Two runs are parallel in a domain if they do the same as long as they meet with what
belongs to it, and until then their states hold only what fits into it wherever it may be looked at,
and buffers and struct values that it does not name are left alone. They are not stopped by an
integer that is too large for a floating number if the domain has none. That a run stays in a domain
is to say that it is parallel to itself. -/

namespace MiniC

/-- What a run may meet with. -/
structure Domain where
  states : Machine → Prop
  uses : Leaf → Machine → Prop
  occurs : Occurrence → Prop
  targets : Leaf → Prop
  ints : MachineInt → Prop
  pointers : Pointer → Prop
  locations : Location → Prop
  shown : Location → Prop

namespace Domain

variable (D : Domain)

/-- Whether a value may be held: if it is an integer or names a location, that is one of the
domain. -/
def Fits : Value → Prop
  | .int n => D.ints n
  | .pointer a => D.locations (.buffer a.buffer)
  | .record id => D.locations (.record id)
  | _ => True

/-- Whether a value may be that of an expression: it fits, and if it is a pointer, it is one of the
domain. -/
def Knows : Value → Prop
  | .int n => D.ints n
  | .pointer a => D.pointers a ∧ D.locations (.buffer a.buffer)
  | .record id => D.locations (.record id)
  | _ => True

/-- Whether all integers of the domain can become floating numbers. -/
def Convertible : Prop :=
  ∀ n, D.ints n → Binary64.exceeds n.value = false

/-- Whether a place is at a location of the domain. -/
def Has (place : Place) : Prop :=
  D.locations place.location

/-- Whether a run may come to a moment: to its state, and to a name that is looked up there. -/
structure Meets (moment : Moment Deed Machine) : Prop where
  state : D.states moment.state
  use : ∀ leaf, moment.deed = some (.use leaf) → D.uses leaf moment.state

/-- Whether the buffers and struct values that are not named by the domain are in a later state as
they were before, or, if they are buffers, freed. -/
structure Spares (m t : Machine) : Prop where
  next : m.arena.next ≤ t.arena.next
  buffers : ∀ h, h < m.arena.next → ¬D.locations (.buffer h) →
    t.arena.buffer? h = m.arena.buffer? h ∨ t.arena.buffer? h = none
  size : m.records.all.size ≤ t.records.all.size
  records : ∀ id, id < m.records.all.size → ¬D.locations (.record id) →
    t.records.all[id]? = m.records.all[id]?

/-- Whether all of several occurrences belong to the domain. -/
def Covers (occurrences : List Occurrence) : Prop :=
  ∀ o ∈ occurrences, D.occurs o

/-- Whether a state belongs to the domain, with all that is held in it where it may be looked at and
all its functions. -/
structure Good (m : Machine) : Prop where
  state : D.states m
  held : ∀ v, m.HoldsIn D.shown v → D.Fits v
  functions : ∀ entry ∈ m.functions, D.Covers entry.2.code

/-- Whether the moments of a run after a state are good, and spare what the domain does not name. -/
structure Fares (m : Machine) (moments : List (Moment Deed Machine)) : Prop where
  good : ∀ moment ∈ moments, D.Good moment.state
  spares : (m :: moments.map (·.state)).Pairwise D.Spares

variable {D}

@[simp]
theorem covers_cons {o : Occurrence} {l : List Occurrence} :
    D.Covers (o :: l) ↔ D.occurs o ∧ D.Covers l :=
  List.forall_mem_cons

@[simp]
theorem covers_append {l l' : List Occurrence} :
    D.Covers (l ++ l') ↔ D.Covers l ∧ D.Covers l' :=
  List.forall_mem_append

theorem covers_flatMap {α : Type} {f : α → List Occurrence} {l : List α} :
    D.Covers (l.flatMap f) ↔ ∀ a ∈ l, D.Covers (f a) :=
  ⟨fun h a ha o ho => h o (List.mem_flatMap.mpr ⟨a, ha, ho⟩), fun h o ho => by
    obtain ⟨a, ha, ho⟩ := List.mem_flatMap.mp ho
    exact h a ha o ho⟩

theorem Knows.fits {v : Value} (h : D.Knows v) : D.Fits v := by
  cases v with
  | int n | record id => exact h
  | pointer a => exact h.2
  | _ => trivial

theorem fits_of {v : Value} (hint : ∀ n, v = .int n → D.ints n)
    (hlocation : ∀ l ∈ v.location?, D.locations l) : D.Fits v := by
  cases v with
  | int n => exact hint n rfl
  | pointer _ | record _ => exact hlocation _ rfl
  | _ => trivial

theorem Convertible.exceedsFloats (h : D.Convertible) {v : Value} (hv : D.Fits v) :
    v.exceedsFloats = false := by
  cases v with
  | int n => exact h n hv
  | _ => rfl

theorem Fits.location {v : Value} (h : D.Fits v) {l : Location} (hl : l ∈ v.location?) :
    D.locations l := by
  cases v with
  | pointer _ | record _ =>
    cases hl
    exact h
  | _ => cases hl

/-- A state of the domain that holds no more than another one, apart from what fits. -/
theorem Good.next {m m' : Machine} (hm : D.Good m) (hstate : D.states m')
    (hheld : ∀ v, m'.HoldsIn D.shown v → D.Fits v ∨ m.HoldsIn D.shown v)
    (hfunctions : m'.functions = m.functions) : D.Good m' where
  state := hstate
  held v hv := (hheld v hv).elim id (hm.held v)
  functions := hfunctions ▸ hm.functions

/-! ## What is spared -/

/-- A step that leaves buffers and struct values as they are. -/
theorem Spares.of_same {m t : Machine} (harena : t.arena = m.arena)
    (hrecords : t.records = m.records) : D.Spares m t where
  next := Nat.le_of_eq (congrArg Arena.next harena.symm)
  buffers _ _ _ := .inl (by rw [harena])
  size := Nat.le_of_eq (congrArg (·.all.size) hrecords.symm)
  records _ _ _ := by rw [hrecords]

theorem Spares.refl (m : Machine) : D.Spares m m :=
  .of_same rfl rfl

theorem Spares.trans ⦃m t u : Machine⦄ (h₁ : D.Spares m t) (h₂ : D.Spares t u) :
    D.Spares m u where
  next := Nat.le_trans h₁.next h₂.next
  buffers h hh hout := by
    rcases h₂.buffers h (Nat.lt_of_lt_of_le hh h₁.next) hout with hsame | hnone
    · rw [hsame]
      exact h₁.buffers h hh hout
    · exact .inr hnone
  size := Nat.le_trans h₁.size h₂.size
  records id hid hout :=
    (h₂.records id (Nat.lt_of_lt_of_le hid h₁.size) hout).trans (h₁.records id hid hout)

/-- A new buffer leaves the others alone. -/
theorem Spares.of_alloc {m t : Machine} {values : Array Value}
    (harena : t.arena = (m.arena.alloc values).2) (hrecords : t.records = m.records) :
    D.Spares m t where
  next := by
    rw [harena, Arena.next_alloc]
    exact Nat.le_succ _
  buffers k hk _ := .inl (by rw [harena, Arena.buffer?_alloc, if_neg (Nat.ne_of_lt hk)])
  size := Nat.le_of_eq (congrArg (·.all.size) hrecords.symm)
  records _ _ _ := by rw [hrecords]

/-- A write into a buffer leaves those alone that the domain does not name. -/
theorem Spares.of_put {m : Machine} {p : Pointer} (hp : D.locations (.buffer p.buffer))
    (hbuffer : p.buffer ≠ 0) (v : Value) : D.Spares m { m with arena := m.arena.put p v } where
  next := Nat.le_of_eq (Arena.next_put ..).symm
  buffers k _ hout := by
    refine .inl (Arena.buffer?_put_of_ne _ _ _ ?_ hbuffer)
    rintro rfl
    exact hout hp
  size := Nat.le_refl _
  records _ _ _ := rfl

/-- A new struct value leaves the others alone. -/
theorem Spares.of_addRecord (m : Machine) (record : Record) :
    D.Spares m (m.addRecord record).2 where
  next := Nat.le_refl _
  buffers _ _ _ := .inl rfl
  size := Nat.le_of_lt (Nat.lt_of_lt_of_eq (Nat.lt_succ_self _) (Array.size_push ..).symm)
  records _ hid _ :=
    (Array.getElem?_push_lt hid).trans (Array.getElem?_eq_getElem hid).symm

/-- A write into a struct value leaves those alone that the domain does not name. -/
theorem Spares.of_setField {m : Machine} {id : Nat} (hid : D.locations (.record id))
    (name : String) (v : Value) :
    D.Spares m { m with records := m.records.setField id name v } where
  next := Nat.le_refl _
  buffers _ _ _ := .inl rfl
  size := Nat.le_of_eq (Array.size_modify ..).symm
  records k _ hout := by
    have hne : id ≠ k := by
      rintro rfl
      exact hout hid
    simp only [Records.setField, Array.getElem?_modify, if_neg hne]

/-- Leaving a scope frees its buffers. -/
theorem Spares.pop (m : Machine) : D.Spares m m.pop := by
  unfold Machine.pop
  split
  · exact .refl m
  · rename_i frame _
    refine ⟨Nat.le_of_eq (Arena.next_freeAll ..).symm, fun h _ _ => ?_, Nat.le_refl _,
      fun _ _ _ => rfl⟩
    change (m.arena.freeAll frame.owned).buffer? h = _ ∨ (m.arena.freeAll frame.owned).buffer? h = _
    rw [Arena.buffer?_freeAll]
    split
    · exact .inr rfl
    · exact .inl rfl

/-! ## How a run fares -/

theorem Fares.nil (m : Machine) : D.Fares m [] :=
  ⟨List.forall_mem_nil _, List.pairwise_singleton _ _⟩

theorem Fares.append {m t : Machine} {moments rest : List (Moment Deed Machine)}
    {before : List Machine} (h : D.Fares m moments)
    (hlast : m :: moments.map (·.state) = before ++ [t]) (hrest : D.Fares t rest) :
    D.Fares m (moments ++ rest) where
  good := List.forall_mem_append.mpr ⟨h.good, hrest.good⟩
  spares := by
    have hspares := h.spares
    rw [hlast] at hspares
    have hall := Traced.pairwise_append_of_meet Spares.trans hspares hrest.spares
    rw [List.map_append, ← List.cons_append, hlast, List.append_assoc, List.singleton_append]
    rw [List.pairwise_append] at hspares ⊢
    rw [List.pairwise_append] at hall
    refine ⟨hspares.1, hrest.spares, fun a ha b hb => ?_⟩
    rcases List.mem_cons.mp hb with rfl | hb
    · exact hspares.2.2 a ha _ (List.mem_singleton_self _)
    · exact hall.2.2 a ha b hb

theorem Fares.cons {m : Machine} {moment : Moment Deed Machine}
    {moments : List (Moment Deed Machine)} (hgood : D.Good moment.state)
    (hspares : D.Spares m moment.state) (h : D.Fares moment.state moments) :
    D.Fares m (moment :: moments) where
  good := List.forall_mem_cons.mpr ⟨hgood, h.good⟩
  spares := by
    have hrest := h.spares
    rw [List.map_cons, List.pairwise_cons]
    refine ⟨fun t ht => ?_, hrest⟩
    rcases List.mem_cons.mp ht with rfl | ht
    · exact hspares
    · exact hspares.trans ((List.pairwise_cons.mp hrest).1 t ht)

end Domain

theorem Stop.locate_eq_tooLarge {pos : Option Position} {stop : Stop}
    (h : stop.locate pos = .tooLarge) : stop = .tooLarge := by
  unfold Stop.locate at h
  split at h
  · cases h
  · exact h

namespace Run

variable {α β : Type} {D : Domain}

/-- Whether two runs from a state do the same, have results of which `Q` holds, and are not stopped
by a large integer if there is none. -/
structure Together (D : Domain) (x y : Run α) (m : Machine) (Q : α → Prop) : Prop where
  exec : y.exec m = x.exec m
  trace : y.trace m = x.trace m
  last : ∃ before, m :: (x.trace m).map (·.state) = before ++ [x.after m]
  result : ∀ a t, x.exec m = .ok a t → Q a
  notLarge : D.Convertible → ∀ t, x.exec m ≠ .error .tooLarge t

/-- Whether two runs do the same from all good states, as long as they meet with what belongs to the
domain, and fare well until they do not. -/
structure Parallel (D : Domain) (x y : Run α) (Q : α → Prop) : Prop where
  together : ∀ m, D.Good m → (∀ moment ∈ x.trace m, D.Meets moment) → Together D x y m Q
  fares : ∀ m, D.Good m → ∀ moments, moments <+: x.trace m →
    (∀ moment ∈ moments, D.Meets moment) → D.Fares m moments

/-- Whether a run stays in a domain, with results of which `Q` holds. -/
abbrev Stays (D : Domain) (x : Run α) (Q : α → Prop) : Prop :=
  Parallel D x x Q

theorem Parallel.good_after {x y : Run α} {Q : α → Prop} (h : Parallel D x y Q) {m : Machine}
    (hm : D.Good m) (hmeets : ∀ moment ∈ x.trace m, D.Meets moment) : D.Good (x.after m) := by
  obtain ⟨before, hlast⟩ := (h.together m hm hmeets).last
  have hmem : x.after m ∈ m :: (x.trace m).map (·.state) := by
    rw [hlast]
    exact List.mem_append_right _ (List.mem_singleton_self _)
  rcases List.mem_cons.mp hmem with heq | hmem
  · rw [heq]
    exact hm
  · obtain ⟨moment, hmoment, heq⟩ := List.mem_map.mp hmem
    rw [← heq]
    exact (h.fares m hm _ List.prefix_rfl hmeets).good moment hmoment

/-! ## Single steps -/

/-- A run that changes nothing, and notes nothing down. -/
def Still (x : Run α) : Prop :=
  ∀ m, x.trace m = [] ∧ x.after m = m

theorem still_pure (a : α) : Still (pure a : Run α) :=
  fun _ => ⟨rfl, rfl⟩

theorem still_stop (stop : Stop) : Still (throw stop : Run α) :=
  fun _ => ⟨rfl, rfl⟩

theorem still_get : Still (get : Run Machine) :=
  fun _ => ⟨rfl, rfl⟩

theorem Still.bind {x : Run α} {f : α → Run β} (hx : Still x) (hf : ∀ a, Still (f a)) :
    Still (x >>= f) := by
  intro m
  obtain ⟨htrace, hafter⟩ := hx m
  cases hexec : x.exec m with
  | ok a t =>
    rw [Traced.after_of_ok hexec] at hafter
    subst hafter
    rw [Traced.trace_bind_of_ok f hexec, Traced.after_bind_of_ok f hexec, htrace]
    exact hf a t
  | error stop t =>
    rw [Traced.trace_bind_of_error f hexec, Traced.after_bind_of_error f hexec]
    exact ⟨htrace, hafter⟩

theorem Still.eq_of_ok {x : Run α} (hx : Still x) {m t : Machine} {a : α}
    (hexec : x.exec m = .ok a t) : t = m := by
  rw [← Traced.after_of_ok hexec]
  exact (hx m).2

theorem stays_of_still {x : Run α} {Q : α → Prop} (hstill : Still x)
    (hQ : ∀ m, D.Good m → ∀ a t, x.exec m = .ok a t → Q a)
    (hlarge : D.Convertible → ∀ m t, x.exec m ≠ .error .tooLarge t) : Stays D x Q where
  together m hm _ := by
    refine ⟨rfl, rfl, ⟨[], ?_⟩, hQ m hm, fun hD => hlarge hD m⟩
    rw [(hstill m).1, (hstill m).2]
    rfl
  fares m _ moments hmoments _ := by
    rw [(hstill m).1] at hmoments
    rw [List.prefix_nil.mp hmoments]
    exact .nil m

/-- A run of one step. -/
theorem stays_of_step {x : Run α} {Q : α → Prop} {f : Machine → α × Machine} {deed? : Option Deed}
    (hexec : ∀ m, x.exec m = .ok (f m).1 (f m).2) (htrace : ∀ m, x.trace m = [⟨deed?, (f m).2⟩])
    (hgood : ∀ m, D.Good m → D.states (f m).2 → D.Good (f m).2) (hspares : ∀ m, D.Spares m (f m).2)
    (hQ : ∀ m, D.Good m → D.states (f m).2 → Q (f m).1) : Stays D x Q where
  together m hm hmeets := by
    rw [htrace, List.forall_mem_singleton] at hmeets
    refine ⟨rfl, rfl, ⟨[m], ?_⟩, fun a t h => ?_, fun _ t h => ?_⟩
    · rw [Traced.after_of_ok (hexec m), htrace]
      rfl
    · rw [hexec] at h
      cases h
      exact hQ m hm hmeets.state
    · rw [hexec] at h
      cases h
  fares m hm moments hmoments hmeets := by
    rw [htrace] at hmoments
    rcases List.prefix_cons_iff.mp hmoments with rfl | ⟨rest, rfl, hrest⟩
    · exact .nil m
    · rw [List.prefix_nil.mp hrest, List.forall_mem_singleton] at hmeets
      rw [List.prefix_nil.mp hrest]
      exact .cons (hgood m hm hmeets.state) (hspares m) (.nil _)

/-- A change of the state after which no more is held than before, apart from what fits. -/
theorem stays_modifyGet {f : Machine → α × Machine} {Q : α → Prop}
    (hheld : ∀ m : Machine, D.Good m → ∀ v,
      (f m).2.HoldsIn D.shown v → D.Fits v ∨ m.HoldsIn D.shown v)
    (hfunctions : ∀ m, (f m).2.functions = m.functions) (hspares : ∀ m, D.Spares m (f m).2)
    (hQ : ∀ m, D.Good m → D.states (f m).2 → Q (f m).1) : Stays D (modifyGet f) Q :=
  stays_of_step (Traced.exec_modifyGet f) (Traced.trace_modifyGet f)
    (fun m hm hstate => hm.next hstate (hheld m hm) (hfunctions m)) hspares hQ

theorem stays_modify {f : Machine → Machine}
    (hheld : ∀ m : Machine, D.Good m → ∀ v,
      (f m).HoldsIn D.shown v → D.Fits v ∨ m.HoldsIn D.shown v)
    (hfunctions : ∀ m, (f m).functions = m.functions) (hspares : ∀ m, D.Spares m (f m)) :
    Stays D (modify f : Run PUnit) fun _ => True :=
  stays_modifyGet (f := fun m => (PUnit.unit, f m)) hheld hfunctions hspares fun _ _ _ => trivial

theorem stays_note (deed : Deed) : Stays D (Traced.note deed : Run Unit) fun _ => True :=
  stays_of_step (f := fun m => ((), m)) (Traced.exec_note deed) (Traced.trace_note deed)
    (fun _ hm _ => hm) Domain.Spares.refl fun _ _ _ => trivial

/-- A step that looks at the state in which a name is looked up. -/
theorem stays_use {leaf : Leaf} {f : Machine → Run α} {Q : α → Prop}
    (hf : ∀ m, D.Good m → D.uses leaf m → Stays D (f m) Q) :
    Stays D (do
      Traced.note (.use leaf)
      f (← get)) Q where
  together m hm hmeets := by
    obtain ⟨huse, hrest⟩ := List.forall_mem_cons.mp hmeets
    have h := (hf m hm (huse.use leaf rfl)).together m hm hrest
    obtain ⟨before, hlast⟩ := h.last
    exact ⟨rfl, rfl, ⟨m :: before, congrArg (m :: ·) hlast⟩, h.result, h.notLarge⟩
  fares m hm moments hmoments hmeets := by
    rcases List.prefix_cons_iff.mp hmoments with rfl | ⟨rest, rfl, hrest⟩
    · exact .nil m
    · obtain ⟨huse, hmeets⟩ := List.forall_mem_cons.mp hmeets
      exact .cons hm (.refl m) ((hf m hm (huse.use leaf rfl)).fares m hm rest hrest hmeets)

theorem stays_pure {a : α} {Q : α → Prop} (h : Q a) : Stays D (pure a : Run α) Q := by
  refine stays_of_still (still_pure a) (fun _ _ => ?_) fun _ _ _ h => by cases h
  rintro _ _ ⟨⟩
  exact h

theorem stays_stop (stop : Stop) (hstop : D.Convertible → stop ≠ .tooLarge) {Q : α → Prop} :
    Stays D (throw stop : Run α) Q := by
  refine stays_of_still (still_stop stop) (fun _ _ _ _ h => by cases h) fun hD m t h => ?_
  cases h
  exact hstop hD rfl

theorem stays_fail (cause : Fault) (pos : Option Position) {Q : α → Prop} :
    Stays D (fail cause pos : Run α) Q :=
  stays_stop (.fault cause pos) fun _ => nofun

theorem stays_failAt (cause : Fault) (pos : Position) {Q : α → Prop} :
    Stays D (failAt cause pos : Run α) Q :=
  stays_fail cause pos

theorem stays_get : Stays D (get : Run Machine) D.Good := by
  refine stays_of_still still_get (fun m hm => ?_) fun _ _ _ h => by cases h
  rintro _ _ ⟨⟩
  exact hm

theorem stays_liftAt (pos : Option Position) {x : Except Fault α} {Q : α → Prop}
    (h : ∀ a, x = .ok a → Q a) : Stays D (liftAt pos x) Q := by
  cases x with
  | ok a => exact stays_pure (h a rfl)
  | error cause => exact stays_fail cause pos

theorem stays_lift {x : Except Fault α} {Q : α → Prop} (h : ∀ a, x = .ok a → Q a) :
    Stays D (lift x) Q :=
  stays_liftAt none h

/-! ## Ways to put runs together -/

namespace Parallel

variable {x y : Run α} {P Q : α → Prop} {R : β → Prop}

theorem imp (hx : Parallel D x y P) (h : ∀ a, P a → Q a) : Parallel D x y Q where
  together m hm hmeets := by
    obtain ⟨hexec, htrace, hlast, hresult, hlarge⟩ := hx.together m hm hmeets
    exact ⟨hexec, htrace, hlast, fun a t hok => h a (hresult a t hok), hlarge⟩
  fares := hx.fares

/-- What holds of the results from any good state. -/
theorem results (hx : Parallel D x y P)
    (h : ∀ m, D.Good m → ∀ a t, x.exec m = .ok a t → Q a) : Parallel D x y Q where
  together m hm hmeets := by
    obtain ⟨hexec, htrace, hlast, -, hlarge⟩ := hx.together m hm hmeets
    exact ⟨hexec, htrace, hlast, h m hm, hlarge⟩
  fares := hx.fares

theorem bind {f g : α → Run β} (hx : Parallel D x y P)
    (hf : ∀ a, P a → Parallel D (f a) (g a) R) : Parallel D (x >>= f) (y >>= g) R where
  together m hm hmeets := by
    cases hexec : x.exec m with
    | error stop t =>
      rw [Traced.trace_bind_of_error f hexec] at hmeets
      have h := hx.together m hm hmeets
      have hy := h.exec.trans hexec
      refine ⟨?_, ?_, ?_, ?_, fun hD u hu => ?_⟩
      · rw [Traced.exec_bind_of_error g hy, Traced.exec_bind_of_error f hexec]
      · rw [Traced.trace_bind_of_error g hy, Traced.trace_bind_of_error f hexec, h.trace]
      · rw [Traced.after_bind_of_error f hexec, Traced.trace_bind_of_error f hexec]
        exact h.last
      · rw [Traced.exec_bind_of_error f hexec]
        exact fun _ _ h => by cases h
      · rw [Traced.exec_bind_of_error f hexec] at hu
        cases hu
        exact h.notLarge hD t hexec
    | ok a t =>
      rw [Traced.trace_bind_of_ok f hexec, List.forall_mem_append] at hmeets
      have h := hx.together m hm hmeets.1
      have hy := h.exec.trans hexec
      have ht := hx.good_after hm hmeets.1
      obtain ⟨before, hlast⟩ := h.last
      rw [Traced.after_of_ok hexec] at ht hlast
      have h' := (hf a (h.result a t hexec)).together t ht hmeets.2
      refine ⟨?_, ?_, ?_, ?_, ?_⟩
      · rw [Traced.exec_bind_of_ok g hy, Traced.exec_bind_of_ok f hexec, h'.exec]
      · rw [Traced.trace_bind_of_ok g hy, Traced.trace_bind_of_ok f hexec, h.trace, h'.trace]
      · rw [Traced.after_bind_of_ok f hexec, Traced.trace_bind_of_ok f hexec, List.map_append]
        obtain ⟨before', hlast'⟩ := h'.last
        refine ⟨before ++ before', ?_⟩
        rw [← List.cons_append, hlast, List.append_assoc, List.singleton_append, hlast',
          List.append_assoc]
      · rw [Traced.exec_bind_of_ok f hexec]
        exact h'.result
      · rw [Traced.exec_bind_of_ok f hexec]
        exact h'.notLarge
  fares m hm moments hmoments hmeets := by
    cases hexec : x.exec m with
    | error stop t =>
      rw [Traced.trace_bind_of_error f hexec] at hmoments
      exact hx.fares m hm moments hmoments hmeets
    | ok a t =>
      rw [Traced.trace_bind_of_ok f hexec] at hmoments
      obtain ⟨later, heq⟩ := hmoments
      -- the moments end within the first run, or that one is over
      rcases List.append_eq_append_iff.mp heq with ⟨rest, hrest, -⟩ | ⟨rest, rfl, hrest⟩
      · exact hx.fares m hm moments ⟨rest, hrest.symm⟩ hmeets
      · rw [List.forall_mem_append] at hmeets
        have ht := hx.good_after hm hmeets.1
        obtain ⟨-, -, ⟨before, hlast⟩, hresult, -⟩ := hx.together m hm hmeets.1
        rw [Traced.after_of_ok hexec] at ht hlast
        exact (hx.fares m hm _ List.prefix_rfl hmeets.1).append hlast
          ((hf a (hresult a t hexec)).fares t ht rest ⟨later, hrest.symm⟩ hmeets.2)

theorem ite {c : Prop} [Decidable c] {x' y' : Run α} (hx : c → Parallel D x y Q)
    (hy : ¬c → Parallel D x' y' Q) :
    Parallel D (if c then x else x') (if c then y else y') Q := by
  by_cases hc : c
  · rw [if_pos hc, if_pos hc]
    exact hx hc
  · rw [if_neg hc, if_neg hc]
    exact hy hc

/-- A run that stops in one case, and goes on in the other one. -/
theorem reject {c : Prop} [Decidable c] {cause : Fault} {pos : Option Position} {f g : β → Run α}
    (hx : ¬c → Parallel D x y Q) :
    Parallel D (if c then fail cause pos >>= f else x) (if c then fail cause pos >>= g else y) Q :=
  ite (fun _ => (stays_fail cause pos : Stays D _ fun _ => False).bind fun _ => False.elim) hx

theorem mapList {γ : Type} {f g : γ → Run β} {l : List γ} (h : ∀ c ∈ l, Parallel D (f c) (g c) R) :
    Parallel D (l.mapM f) (l.mapM g) fun bs => ∀ b ∈ bs, R b := by
  induction l with
  | nil =>
    rw [List.mapM_nil, List.mapM_nil]
    exact stays_pure (List.forall_mem_nil _)
  | cons c rest ih =>
    obtain ⟨hc, hrest⟩ := List.forall_mem_cons.mp h
    rw [List.mapM_cons, List.mapM_cons]
    refine hc.bind fun b hb => (ih hrest).bind fun bs hbs => stays_pure ?_
    exact List.forall_mem_cons.mpr ⟨hb, hbs⟩

theorem mapArray {γ : Type} {f g : γ → Run β} {l : Array γ}
    (h : ∀ c ∈ l, Parallel D (f c) (g c) R) :
    Parallel D (l.mapM f) (l.mapM g) fun bs => ∀ b ∈ bs, R b := by
  rw [Array.mapM_eq_mapM_toList, Array.mapM_eq_mapM_toList, ← bind_pure_comp, ← bind_pure_comp]
  refine (mapList fun c hc => h c (Array.mem_toList_iff.mp hc)).bind fun bs hbs => stays_pure ?_
  exact fun b hb => hbs b (List.mem_toArray.mp hb)

theorem forM {γ : Type} {f g : γ → Run PUnit} {l : List γ}
    (h : ∀ c ∈ l, Parallel D (f c) (g c) fun _ => True) :
    Parallel D (l.forM f) (l.forM g) fun _ => True := by
  induction l with
  | nil => exact stays_pure trivial
  | cons c rest ih =>
    obtain ⟨hc, hrest⟩ := List.forall_mem_cons.mp h
    exact hc.bind fun _ _ => ih hrest

theorem located (pos : Option Position) (hx : Parallel D x y Q) :
    Parallel D (located pos x) (located pos y) Q where
  together m hm hmeets := by
    have h := hx.together m hm hmeets
    refine ⟨?_, h.trace, ?_, ?_, fun hD t hexec => ?_⟩
    · simp only [Run.located, Traced.mapError, h.exec]
    · rw [Run.located, Traced.after_mapError]
      exact h.last
    · intro a t hexec
      simp only [Run.located, Traced.mapError] at hexec
      cases hx' : x.exec m with
      | ok b u =>
        rw [hx'] at hexec
        cases hexec
        exact h.result a t hx'
      | error stop u =>
        rw [hx'] at hexec
        cases hexec
    · simp only [Run.located, Traced.mapError] at hexec
      cases hx' : x.exec m with
      | ok b u =>
        rw [hx'] at hexec
        cases hexec
      | error stop u =>
        rw [hx'] at hexec
        obtain ⟨hstop, -⟩ := EStateM.Result.error.inj hexec
        rw [Stop.locate_eq_tooLarge hstop] at hx'
        exact h.notLarge hD u hx'
  fares := hx.fares

/-- Runs between two changes of the state, neither of which adds anything. -/
theorem between {first last : Option Deed} {enter leave : Machine → Machine}
    (henter : ∀ m v, (enter m).HoldsIn D.shown v → m.HoldsIn D.shown v)
    (hleave : ∀ m v, (leave m).HoldsIn D.shown v → m.HoldsIn D.shown v)
    (hentered : ∀ m, (enter m).functions = m.functions)
    (hleft : ∀ m, (leave m).functions = m.functions) (hopens : ∀ m, D.Spares m (enter m))
    (hcloses : ∀ m, D.Spares m (leave m)) (hx : Parallel D x y Q) :
    Parallel D (x.between first last enter leave) (y.between first last enter leave) Q where
  together m hm hmeets := by
    obtain ⟨hbegin, hrest⟩ := List.forall_mem_cons.mp hmeets
    obtain ⟨hbody, -⟩ := List.forall_mem_append.mp hrest
    have hin : D.Good (enter m) :=
      hm.next hbegin.state (fun v hv => .inr (henter m v hv)) (hentered m)
    have h := hx.together (enter m) hin hbody
    have hafter : y.after (enter m) = x.after (enter m) := by
      simp only [Traced.after, h.exec]
    refine ⟨?_, ?_, ?_, ?_, fun hD t hexec => ?_⟩
    · simp only [Traced.between, h.exec]
    · simp only [Traced.between, h.trace, hafter]
    · rw [Traced.after_between]
      exact ⟨m :: enter m :: (x.trace (enter m)).map (·.state), by simp [Traced.between]⟩
    · intro a t hexec
      simp only [Traced.between] at hexec
      cases hx' : x.exec (enter m) with
      | ok b u =>
        rw [hx'] at hexec
        cases hexec
        exact h.result _ u hx'
      | error stop u =>
        rw [hx'] at hexec
        cases hexec
    · simp only [Traced.between] at hexec
      cases hx' : x.exec (enter m) with
      | ok b u =>
        rw [hx'] at hexec
        cases hexec
      | error stop u =>
        rw [hx'] at hexec
        cases hexec
        exact h.notLarge hD u hx'
  fares m hm moments hmoments hmeets := by
    change moments <+: ⟨first, enter m⟩ :: (x.trace (enter m) ++ [_]) at hmoments
    rcases List.prefix_cons_iff.mp hmoments with rfl | ⟨rest, rfl, hbegins⟩
    · exact .nil m
    · obtain ⟨hbegin, hrest⟩ := List.forall_mem_cons.mp hmeets
      have hin : D.Good (enter m) :=
        hm.next hbegin.state (fun v hv => .inr (henter m v hv)) (hentered m)
      refine .cons hin (hopens m) ?_
      -- the moments end before the scope is left, or with that
      rcases List.prefix_concat_iff.mp hbegins with rfl | hbegins
      · rw [List.forall_mem_append, List.forall_mem_singleton] at hrest
        obtain ⟨before, hlast⟩ := (hx.together _ hin hrest.1).last
        refine (hx.fares _ hin _ List.prefix_rfl hrest.1).append hlast ?_
        refine .cons ?_ (hcloses _) (.nil _)
        exact (hx.good_after hin hrest.1).next hrest.2.state (fun v hv => .inr (hleave _ v hv))
          (hleft _)
      · exact hx.fares _ hin _ hbegins hrest

theorem inScope (hx : Parallel D x y Q) : Parallel D (inScope x) (inScope y) Q := by
  refine between (fun _ _ => id) (fun _ _ => Machine.holdsIn_pop) (fun _ => rfl) (fun m => ?_)
    (fun _ => .of_same rfl rfl) .pop hx
  unfold Machine.pop
  split <;> rfl

theorem inCall (name : String) (hx : Parallel D x y Q) :
    Parallel D (inCall name x) (inCall name y) Q := by
  refine stays_get.bind fun m _ => ?_
  refine between (fun _ _ => id) (fun _ _ => Machine.holdsIn_pop) (fun _ => rfl) (fun m => ?_)
    (fun _ => .of_same rfl rfl) (fun m => (Domain.Spares.pop m).trans (.of_same rfl rfl)) hx
  rw [Machine.leaveCall, Machine.pop]
  split <;> rfl

end Parallel

end Run

end MiniC
