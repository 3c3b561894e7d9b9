import Mathlib.Data.List.Nodup
import MiniC.Proofs.Constants.Variables
import MiniC.Proofs.Copies.Belongings

set_option autoImplicit false

/-! # Arrays of arrays as they are made

Making an array adds buffers and struct values to a state and leaves what is there as it is; there
are no variables and no string literals in what it adds. An array of arrays is a buffer of pointers
to its rows, one for each row, and no two rows are in the same buffer. -/

namespace MiniC

namespace Machine

/-- Whether a state has all that another one has, as it is there, and no variables and string
literals in addition. -/
structure Builds (m m' : Machine) : Prop extends m.Spares m' where
  binds : ∀ b, m'.Binds b → m.Binds b
  strings : m'.strings = m.strings

theorem Builds.refl (m : Machine) : m.Builds m :=
  ⟨.refl m, fun _ => id, rfl⟩

theorem Builds.trans {m t u : Machine} (h : m.Builds t) (h' : t.Builds u) : m.Builds u where
  toSpares := h.toSpares.trans h'.toSpares
  binds b hb := h.binds b (h'.binds b hb)
  strings := h'.strings.trans h.strings

theorem builds_alloc (m : Machine) (values : Array Value) : m.Builds (m.alloc values).2 :=
  ⟨(m.adds_alloc values).toSpares, fun _ => id, rfl⟩

theorem builds_own (m : Machine) (values : Array Value) : m.Builds (m.own values).2 where
  structs := rfl
  made l hl := by
    cases l with
    | buffer handle => exact (m.adds_alloc values).made (.buffer handle) hl
    | record id => exact hl
  same l hl := by
    cases l with
    | buffer handle => exact (m.adds_alloc values).same (.buffer handle) hl
    | record id => rfl
  binds := (m.makes_own values).binds
  strings := rfl

theorem builds_addRecord (m : Machine) (record : Record) : m.Builds (m.addRecord record).2 :=
  ⟨(m.adds_addRecord record).toSpares, fun _ => id, rfl⟩

end Machine

namespace Run

/-! ## Runs that add -/

variable {α β : Type} {m m' : Machine} {elem : CType} {make : Run Value}

/-- Whether a run leaves what is there as it is, and makes no variables and string literals. -/
def Building (x : Run α) : Prop :=
  ∀ m : Machine, m.Builds (x.after m)

theorem Building.of_ok {x : Run α} (hx : Building x) {a : α} (h : x.exec m = .ok a m') :
    m.Builds m' :=
  Traced.after_of_ok h ▸ hx m

theorem building_of_still {x : Run α} (hx : ∀ m, x.after m = m) : Building x := fun m => by
  rw [hx m]
  exact .refl m

theorem building_pure (a : α) : Building (pure a : Run α) :=
  building_of_still fun _ => rfl

theorem building_stop (stop : Stop) : Building (throw stop : Run α) :=
  building_of_still fun _ => rfl

theorem building_lift (x : Except Fault α) : Building (lift x) := by
  cases x with
  | ok a => exact building_pure a
  | error cause => exact building_stop _

theorem Building.bind {x : Run α} {f : α → Run β} (hx : Building x) (hf : ∀ a, Building (f a)) :
    Building (x >>= f) := by
  intro m
  cases hexec : x.exec m with
  | ok a t =>
    rw [Traced.after_bind_of_ok f hexec]
    exact (hx.of_ok hexec).trans (hf a t)
  | error stop t =>
    rw [Traced.after_bind_of_error f hexec]
    exact hx m

theorem building_get : Building (get : Run Machine) :=
  building_of_still fun _ => rfl

theorem Building.mapList {f : α → Run β} {l : List α} (h : ∀ a, Building (f a)) :
    Building (l.mapM f) := by
  induction l with
  | nil =>
    rw [List.mapM_nil]
    exact building_pure []
  | cons a l ih =>
    rw [List.mapM_cons]
    exact (h a).bind fun b => ih.bind fun bs => building_pure (b :: bs)

theorem building_newBuffer (owned : Bool) (values : Array Value) :
    Building (newBuffer owned values) := by
  cases owned with
  | true => exact fun m => m.builds_own values
  | false => exact fun m => m.builds_alloc values

theorem building_newRecord (record : Record) : Building (newRecord record) :=
  Building.bind (fun m => m.builds_addRecord record) fun id =>
    building_pure (Value.record id)

theorem Building.makeValues (hmake : Building make) (n : Nat) (made : Array Value) :
    Building (Run.makeValues make n made) := by
  induction n generalizing made with
  | zero => exact building_pure made
  | succ n ih => exact hmake.bind fun v => ih (made.push v)

theorem Building.newArrayOf (hmake : Building make) (owned : Bool) (elem : CType)
    (sizes : List Nat) : Building (Run.newArrayOf owned elem make sizes) := by
  induction sizes with
  | nil => exact (building_newBuffer owned _).bind fun _ => building_pure _
  | cons n sizes ih =>
    cases sizes with
    | nil =>
      refine (hmake.makeValues n #[]).bind fun values => ?_
      exact (building_newBuffer owned values).bind fun _ => building_pure _
    | cons size sizes =>
      have hrow : Building (do
          return .pointer (← Run.newArrayOf owned elem make (size :: sizes)) : Run Value) :=
        ih.bind fun row => building_pure _
      refine (hrow.makeValues n #[]).bind fun rows => ?_
      exact (building_newBuffer owned rows).bind fun _ => building_pure _

theorem building_zeroWithin (depth : Nat) (t : CType) : Building (zeroWithin depth t) := by
  induction depth generalizing t with
  | zero =>
    rw [zeroWithin]
    split
    · exact building_stop _
    · exact building_lift _
  | succ depth ih =>
    rw [zeroWithin]
    split
    · refine building_get.bind fun m => (Building.mapList fun f => ?_).bind fun fields =>
        building_newRecord _
      cases f.bounds with
      | none => exact (ih f.type).bind fun v => building_pure _
      | some dims =>
        dsimp only [elementType]
        cases f.type.element? dims.length with
        | none => exact Building.bind (building_stop _) fun elem =>
            ((ih elem).newArrayOf false elem dims).bind fun array => building_pure _
        | some elem => exact Building.bind (building_pure elem) fun elem =>
            ((ih elem).newArrayOf false elem dims).bind fun array => building_pure _
    · exact building_lift _

theorem building_zeroValue (t : CType) : Building (zeroValue t) :=
  building_get.bind fun _ => building_zeroWithin _ t

/-! ## Rows -/

/-- A new buffer has the handle that comes next. -/
theorem exec_newBuffer (owned : Bool) (values : Array Value) (m : Machine) :
    ∃ m', (newBuffer owned values).exec m = .ok m.arena.next m' ∧
      m'.arena = (m.arena.alloc values).2 := by
  cases owned with
  | true => exact ⟨_, rfl, rfl⟩
  | false => exact ⟨_, rfl, rfl⟩

theorem size_of_makeValues {n : Nat} {made values : Array Value}
    (h : (makeValues make n made).exec m = .ok values m') : values.size = made.size + n := by
  induction n generalizing made m with
  | zero =>
    cases h
    rfl
  | succ n ih =>
    obtain ⟨v, t, -, hrest, -⟩ := Traced.exec_bind_eq_ok h
    rw [ih hrest, Array.size_push, Nat.add_right_comm, Nat.add_assoc]

/-- A pointer to a row, which is in the buffer with the given handle. -/
def rowPointer (elem : CType) (handle : Nat) : Pointer := ⟨handle, 0, some elem⟩

/-- Whether a value was made between two states, with some buffers made earlier or later. -/
def MadeApart (make : Run Value) (m t : Machine) (handles : List Nat) (v : Value) : Prop :=
  ∃ u u', make.exec u = .ok v u' ∧ m.Builds u ∧ u'.Builds t ∧
    ∀ handle ∈ handles, handle < u.arena.next ∨ u'.arena.next ≤ handle

/-- Whether there are rows of `c` values each in different buffers, which were made after a
state. -/
structure HasRows (make : Run Value) (m t : Machine) (c : Nat) (handles : List Nat) : Prop where
  nodup : handles.Nodup
  new : ∀ handle ∈ handles, m.arena.next ≤ handle
  rows : ∀ handle ∈ handles, ∃ values, t.arena.buffer? handle = some values ∧ values.size = c ∧
    ∀ v ∈ values, MadeApart make m t handles v

theorem HasRows.lt_next {t : Machine} {c : Nat} {handles : List Nat}
    (h : HasRows make m t c handles) {handle : Nat} (hmem : handle ∈ handles) :
    handle < t.arena.next := by
  obtain ⟨values, hbuffer, -⟩ := h.rows handle hmem
  exact (Arena.Live.bounds (by rw [Arena.Live, hbuffer]; rfl)).2

theorem next_le_of_builds (h : m.Builds m') : m.arena.next ≤ m'.arena.next :=
  Nat.succ_le_of_lt (h.made (.buffer m.arena.buffers.size) (Nat.lt_succ_self _))

theorem MadeApart.mono {t t' : Machine} {handles handles' : List Nat} {v : Value}
    (h : MadeApart make m t handles v) (hbuilds : t.Builds t')
    (hnew : ∀ handle ∈ handles', handle ∈ handles ∨ t.arena.next ≤ handle) :
    MadeApart make m t' handles' v := by
  obtain ⟨u, u', hmade, hfirst, hlater, hapart⟩ := h
  refine ⟨u, u', hmade, hfirst, hlater.trans hbuilds, fun handle hmem => ?_⟩
  rcases hnew handle hmem with hmem | hle
  · exact hapart handle hmem
  · exact .inr (Nat.le_trans (next_le_of_builds hlater) hle)

/-- What is made after some rows leaves them as they are. -/
theorem HasRows.later {t t' : Machine} {c : Nat} {handles handles' : List Nat}
    (h : HasRows make m t c handles) (hbuilds : t.Builds t')
    (hnew : ∀ handle ∈ handles', handle ∈ handles ∨ t.arena.next ≤ handle) :
    ∀ handle ∈ handles, ∃ values, t'.arena.buffer? handle = some values ∧ values.size = c ∧
      ∀ v ∈ values, MadeApart make m t' handles' v := by
  intro handle hmem
  obtain ⟨values, hbuffer, hsize, hmade⟩ := h.rows handle hmem
  have hsame : t'.arena.buffer? handle = t.arena.buffer? handle :=
    hbuilds.same (.buffer handle) (h.lt_next hmem)
  exact ⟨values, hsame.trans hbuffer, hsize, fun v hv => (hmade v hv).mono hbuilds hnew⟩

/-- The values that are made one after another. -/
theorem made_of_makeValues (hmake : Building make) {n : Nat} {made values : Array Value}
    (h : (makeValues make n made).exec m = .ok values m') :
    ∀ v ∈ values, v ∈ made ∨ ∃ u u', make.exec u = .ok v u' ∧ m.Builds u ∧ u'.Builds m' := by
  induction n generalizing made m with
  | zero =>
    cases h
    exact fun v hv => .inl hv
  | succ n ih =>
    obtain ⟨w, t, hw, hrest, -⟩ := Traced.exec_bind_eq_ok h
    intro v hv
    rcases ih hrest v hv with hmem | ⟨u, u', hv, hbefore, hafter⟩
    · rcases Array.mem_push.mp hmem with hmem | rfl
      · exact .inl hmem
      · exact .inr ⟨m, t, hw, .refl m, (hmake.makeValues n _).of_ok hrest⟩
    · exact .inr ⟨u, u', hv, (hmake.of_ok hw).trans hbefore, hafter⟩

variable {owned : Bool} {c : Nat}

theorem exists_row (hmake : Building make) {p : Pointer}
    (h : (newArrayOf owned elem make [c]).exec m = .ok p m') :
    ∃ handle values, p = rowPointer elem handle ∧ m.arena.next ≤ handle ∧
      m'.arena.buffer? handle = some values ∧ values.size = c ∧
      ∀ v ∈ values, ∃ u u', make.exec u = .ok v u' ∧ m.Builds u ∧ u'.Builds m' ∧
        u'.arena.next ≤ handle := by
  rw [newArrayOf] at h
  obtain ⟨values, t, hvalues, h, -⟩ := Traced.exec_bind_eq_ok h
  obtain ⟨handle, u, hnew, h, -⟩ := Traced.exec_bind_eq_ok h
  cases h
  obtain ⟨_, hnew', harena⟩ := exec_newBuffer owned values t
  cases hnew.symm.trans hnew'
  have hbuilds := (building_newBuffer owned values).of_ok hnew
  refine ⟨_, values, rfl, next_le_of_builds ((hmake.makeValues c #[]).of_ok hvalues), ?_, ?_,
    fun v hv => ?_⟩
  · rw [harena, Arena.buffer?_alloc, if_pos rfl]
  · rw [size_of_makeValues hvalues]
    exact Nat.zero_add c
  · rcases made_of_makeValues hmake hvalues v hv with hmem | ⟨u, u', hv, hbefore, hafter⟩
    · simp at hmem
    · exact ⟨u, u', hv, hbefore, hafter.trans hbuilds, next_le_of_builds hafter⟩

/-- Rows that are made one after another are in different buffers. -/
theorem exists_rows_of_makeValues (hmake : Building make) {m₀ : Machine} {n : Nat}
    {made values : Array Value} {handles : List Nat}
    (h : (makeValues (do return .pointer (← newArrayOf owned elem make [c])) n made).exec m =
      .ok values m')
    (hmade : made.toList = handles.map fun handle => .pointer (rowPointer elem handle))
    (hrows : HasRows make m₀ m c handles) (hbefore : m₀.Builds m) :
    ∃ all, values.toList = all.map (fun handle => .pointer (rowPointer elem handle)) ∧
      HasRows make m₀ m' c all ∧ all.length = handles.length + n := by
  induction n generalizing made m handles with
  | zero =>
    cases h
    exact ⟨handles, hmade, hrows, rfl⟩
  | succ n ih =>
    obtain ⟨v, t, hrow, hrest, -⟩ := Traced.exec_bind_eq_ok h
    obtain ⟨p, _, hp, hrow, -⟩ := Traced.exec_bind_eq_ok hrow
    cases hrow
    obtain ⟨handle, values, rfl, hnew, hbuffer, hsize, hvalues⟩ := exists_row hmake hp
    have hbuilds : m.Builds t := (hmake.newArrayOf owned elem [c]).of_ok hp
    have hpushed : HasRows make m₀ t c (handles ++ [handle]) := by
      refine ⟨?_, ?_, ?_⟩
      · refine hrows.nodup.append (List.nodup_singleton _) fun h hmem hsame => ?_
        rw [List.mem_singleton.mp hsame] at hmem
        exact Nat.not_le_of_lt (hrows.lt_next hmem) hnew
      · refine List.forall_mem_append.mpr ⟨hrows.new, ?_⟩
        exact List.forall_mem_singleton.mpr (Nat.le_trans (next_le_of_builds hbefore) hnew)
      · refine List.forall_mem_append.mpr ⟨hrows.later hbuilds ?_, ?_⟩
        · refine List.forall_mem_append.mpr ⟨fun h => .inl, ?_⟩
          exact List.forall_mem_singleton.mpr (.inr hnew)
        · refine List.forall_mem_singleton.mpr ⟨values, hbuffer, hsize, fun v hv => ?_⟩
          obtain ⟨u, u', hmake, hfirst, hlater, hle⟩ := hvalues v hv
          refine ⟨u, u', hmake, hbefore.trans hfirst, hlater, ?_⟩
          refine List.forall_mem_append.mpr ⟨fun h hmem => .inl ?_, ?_⟩
          · exact Nat.lt_of_lt_of_le (hrows.lt_next hmem) (next_le_of_builds hfirst)
          · exact List.forall_mem_singleton.mpr (.inr hle)
    obtain ⟨all, hall, hrows', hlength⟩ := ih hrest (by simp [hmade]) hpushed
      (hbefore.trans hbuilds)
    refine ⟨all, hall, hrows', ?_⟩
    rw [hlength, List.length_append, List.length_singleton, Nat.add_assoc, Nat.add_comm 1 n]

/-- Whether an array of arrays, with rows of `c` values each, was made between two states. -/
structure HasArray (m m₁ : Machine) (array : Pointer) (elem : CType) (c : Nat)
    (handles : List Nat) : Prop extends HasRows (zeroValue elem) m m₁ c handles where
  index : array.index = 0
  outer : m₁.arena.buffer? array.buffer =
    some (handles.map fun handle => .pointer (rowPointer elem handle)).toArray
  made : m.arena.next ≤ array.buffer
  apart : array.buffer ∉ handles

/-- An array of arrays is a buffer of pointers to its rows. -/
theorem exists_rows_of_newArray {r : Nat} {array : Pointer}
    (h : (newArray owned elem [r, c]).exec m = .ok array m') :
    m.Builds m' ∧ ∃ handles, handles.length = r ∧ HasArray m m' array elem c handles := by
  have hmake := building_zeroValue elem
  refine ⟨(hmake.newArrayOf owned elem [r, c]).of_ok h, ?_⟩
  rw [newArray, newArrayOf] at h
  obtain ⟨values, t, hvalues, h, -⟩ := Traced.exec_bind_eq_ok h
  obtain ⟨handle, u, hnew, h, -⟩ := Traced.exec_bind_eq_ok h
  cases h
  obtain ⟨_, hnew', harena⟩ := exec_newBuffer owned values t
  cases hnew.symm.trans hnew'
  have hnone : HasRows (zeroValue elem) m m c [] :=
    ⟨.nil, List.forall_mem_nil _, List.forall_mem_nil _⟩
  obtain ⟨handles, hall, hrows, hlength⟩ :=
    exists_rows_of_makeValues hmake hvalues rfl hnone (.refl m)
  have hrow : Building (do
      return .pointer (← newArrayOf owned elem (zeroValue elem) [c]) : Run Value) :=
    (hmake.newArrayOf owned elem [c]).bind fun _ => building_pure _
  have hle := next_le_of_builds ((hrow.makeValues r #[]).of_ok hvalues)
  have hlater := hrows.later ((building_newBuffer owned values).of_ok hnew) fun _ => .inl
  refine ⟨handles, hlength.trans (Nat.zero_add r), ⟨hrows.nodup, hrows.new, hlater⟩, rfl, ?_, hle,
    fun hmem => Nat.lt_irrefl _ (hrows.lt_next hmem)⟩
  rw [harena, Arena.buffer?_alloc, if_pos rfl, ← hall]

end Run

end MiniC
