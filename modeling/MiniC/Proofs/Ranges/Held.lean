import MiniC.Proofs.Names.Keyed
import MiniC.Proofs.Scopes

set_option autoImplicit false

/-! # What a machine holds

The values in the slots of the live buffers and in the fields of the struct values. A step of a run
adds the values that it puts there; a scope that is left takes some away. -/

namespace MiniC

/-! ## Buffers -/

namespace Arena

/-- Whether a value is in a slot of a live buffer. -/
def Holds (a : Arena) (v : Value) : Prop :=
  ∃ h values, a.buffer? h = some values ∧ v ∈ values

/-- Whether a value is in a slot of one of some live buffers. -/
def HoldsIn (a : Arena) (S : Nat → Prop) (v : Value) : Prop :=
  ∃ h values, S h ∧ a.buffer? h = some values ∧ v ∈ values

variable {S : Nat → Prop}

theorem holdsIn_alloc {a : Arena} {values : Array Value} {v : Value}
    (h : (a.alloc values).2.HoldsIn S v) : v ∈ values ∨ a.HoldsIn S v := by
  obtain ⟨handle, held, hS, hbuffer, hv⟩ := h
  rw [buffer?_alloc] at hbuffer
  split at hbuffer
  · cases hbuffer
    exact .inl hv
  · exact .inr ⟨handle, held, hS, hbuffer, hv⟩

theorem holdsIn_freeAll {a : Arena} {handles : Array Nat} {v : Value}
    (h : (a.freeAll handles).HoldsIn S v) : a.HoldsIn S v := by
  obtain ⟨handle, held, hS, hbuffer, hv⟩ := h
  rw [buffer?_freeAll] at hbuffer
  split at hbuffer
  · cases hbuffer
  · exact ⟨handle, held, hS, hbuffer, hv⟩

theorem holdsIn_put {a : Arena} {p : Pointer} {new v : Value} (h : (a.put p new).HoldsIn S v) :
    v = new ∨ a.HoldsIn S v := by
  obtain ⟨handle, held, hS, hbuffer, hv⟩ := h
  cases handle with
  | zero => cases hbuffer
  | succ n =>
    simp only [put, buffer?, Array.getElem?_modify] at hbuffer
    split at hbuffer
    · cases hold : a.buffers[n]? with
      | none =>
        rw [hold] at hbuffer
        cases hbuffer
      | some buffer =>
        cases buffer with
        | none =>
          rw [hold] at hbuffer
          cases hbuffer
        | some values =>
          rw [hold] at hbuffer
          cases hbuffer
          refine (Array.mem_or_eq_of_mem_setIfInBounds hv).symm.imp_right fun hmem => ?_
          exact ⟨n + 1, values, hS, by rw [buffer?, hold]; rfl, hmem⟩
    · exact .inr ⟨n + 1, held, hS, hbuffer, hv⟩

theorem holdsIn_of_contents {a : Arena} {handle : Nat} {values : Array Value}
    (h : a.contents handle = .ok values) (hS : S handle) {v : Value} (hv : v ∈ values) :
    a.HoldsIn S v := by
  unfold contents at h
  split at h
  · cases h
  · rename_i held hbuffer
    cases h
    exact ⟨handle, _, hS, hbuffer, hv⟩

theorem buffer?_of_locate {a : Arena} {p : Pointer} {values : Array Value} {i : Nat}
    (h : a.locate p = .ok (values, i)) : a.buffer? p.buffer = some values := by
  unfold locate at h
  split at h
  · cases h
  · split at h
    · cases h
    · rename_i held hbuffer
      split at h
      · cases h
        exact hbuffer
      · cases h

theorem holdsIn_of_load {a : Arena} {p : Pointer} {v : Value} (h : a.load p = .ok v)
    (hS : S p.buffer) : a.HoldsIn S v := by
  unfold load at h
  cases hplace : a.locate p with
  | error cause =>
    rw [hplace] at h
    cases h
  | ok place =>
    obtain ⟨values, i⟩ := place
    rw [hplace] at h
    dsimp only [bind, Except.bind] at h
    cases hslot : values[i]? with
    | none =>
      rw [hslot] at h
      cases h
    | some w =>
      rw [hslot] at h
      cases h
      exact ⟨p.buffer, values, hS, buffer?_of_locate hplace, Array.mem_of_getElem? hslot⟩

end Arena

/-! ## Struct values -/

namespace Records

/-- Whether a value is in a field of a struct value. -/
def Holds (r : Records) (v : Value) : Prop :=
  ∃ record ∈ r.all, ∃ name, (name, v) ∈ record.fields

/-- Whether a value is in a field of one of some struct values. -/
def HoldsIn (r : Records) (S : Nat → Prop) (v : Value) : Prop :=
  ∃ (id : Nat) (record : Record), S id ∧ r.all[id]? = some record ∧
    ∃ name, (name, v) ∈ record.fields

variable {S : Nat → Prop}

theorem holdsIn_add {r : Records} {record : Record} {v : Value}
    (h : (r.add record).2.HoldsIn S v) :
    (∃ name, (name, v) ∈ record.fields) ∨ r.HoldsIn S v := by
  obtain ⟨id, held, hS, hheld, hfield⟩ := h
  rw [add, Array.getElem?_push] at hheld
  split at hheld
  · cases hheld
    exact .inl hfield
  · exact .inr ⟨id, held, hS, hheld, hfield⟩

theorem holdsIn_setField {r : Records} {id : Nat} {name : String} {new v : Value}
    (h : (r.setField id name new).HoldsIn S v) : v = new ∨ r.HoldsIn S v := by
  obtain ⟨i, held, hS, hi, field, hfield⟩ := h
  simp only [setField, Array.getElem?_modify] at hi
  split at hi
  · obtain ⟨record, hrecord, rfl⟩ := Option.map_eq_some_iff.mp hi
    obtain ⟨⟨old, w⟩, hold, heq⟩ := List.mem_map.mp hfield
    dsimp only at heq
    split at heq
    · cases heq
      exact .inl rfl
    · cases heq
      exact .inr ⟨i, record, hS, hrecord, field, hold⟩
  · exact .inr ⟨i, held, hS, hi, field, hfield⟩

theorem holdsIn_of_get {r : Records} {id : Nat} {name : String} {v : Value}
    (h : (name, v) ∈ (r.get id).fields) (hS : S id) : r.HoldsIn S v := by
  unfold get at h
  cases hrecord : r.all[id]? with
  | none =>
    rw [hrecord] at h
    cases h
  | some record =>
    rw [hrecord] at h
    exact ⟨id, record, hS, hrecord, name, h⟩

theorem holdsIn_of_field? {r : Records} {id : Nat} {name : String} {v : Value}
    (h : r.field? id name = some v) (hS : S id) : r.HoldsIn S v :=
  holdsIn_of_get (mem_of_lookup h) hS

end Records

/-! ## Locations -/

/-- What can be changed: a buffer or a struct value, by its number. -/
inductive Location
  | buffer (handle : Nat)
  | record (id : Nat)
deriving DecidableEq, Repr

namespace Location

/-- Whether a location was made in a state. -/
def Made (m : Machine) : Location → Prop
  | .buffer handle => handle < m.arena.next
  | .record id => id < m.records.all.size

instance (m : Machine) : DecidablePred (Made m)
  | .buffer handle => inferInstanceAs (Decidable (handle < m.arena.next))
  | .record id => inferInstanceAs (Decidable (id < m.records.all.size))

end Location

/-- The location that a value names. -/
def Value.location? : Value → Option Location
  | .pointer p => some (.buffer p.buffer)
  | .record id => some (.record id)
  | _ => none

/-- The location that a store to a place changes. -/
def Place.location : Place → Location
  | .slot p => .buffer p.buffer
  | .field record _ _ => .record record

/-! ## Machines -/

namespace Machine

variable {m : Machine} {S : Location → Prop} {v : Value}

/-- Whether a value is in a slot of a live buffer or in a field of a struct value. -/
def Holds (m : Machine) (v : Value) : Prop :=
  m.arena.Holds v ∨ m.records.Holds v

/-- Whether a value is held at one of some locations. -/
def HoldsIn (m : Machine) (S : Location → Prop) (v : Value) : Prop :=
  m.arena.HoldsIn (fun handle => S (.buffer handle)) v ∨
    m.records.HoldsIn (fun id => S (.record id)) v

theorem HoldsIn.holds (h : m.HoldsIn S v) : m.Holds v := by
  rcases h with ⟨handle, values, -, hbuffer, hv⟩ | ⟨id, record, -, hrecord, hfield⟩
  · exact .inl ⟨handle, values, hbuffer, hv⟩
  · exact .inr ⟨record, Array.mem_of_getElem? hrecord, hfield⟩

/-- What is held is held somewhere. -/
theorem Holds.holdsIn (h : m.Holds v) (hS : ∀ l, S l) : m.HoldsIn S v := by
  rcases h with ⟨handle, values, hbuffer, hv⟩ | ⟨record, hmem, hfield⟩
  · exact .inl ⟨handle, values, hS _, hbuffer, hv⟩
  · obtain ⟨id, hrecord⟩ := Array.mem_iff_getElem?.mp hmem
    exact .inr ⟨id, record, hS _, hrecord, hfield⟩

theorem holdsIn_alloc {values : Array Value} (h : (m.alloc values).2.HoldsIn S v) :
    v ∈ values ∨ m.HoldsIn S v := by
  rcases h with h | h
  · exact (Arena.holdsIn_alloc h).imp_right .inl
  · exact .inr (.inr h)

theorem holdsIn_own {values : Array Value} (h : (m.own values).2.HoldsIn S v) :
    v ∈ values ∨ m.HoldsIn S v := by
  rcases h with h | h
  · exact (Arena.holdsIn_alloc h).imp_right .inl
  · exact .inr (.inr h)

theorem holdsIn_bind {id : Nat} {t : CType} {new : Value} (h : (m.bind id t new).HoldsIn S v) :
    v = new ∨ m.HoldsIn S v := by
  rcases h with h | h
  · exact (Arena.holdsIn_alloc h).imp (fun hv => by simpa using hv) .inl
  · exact .inr (.inr h)

theorem holdsIn_put {p : Pointer} {new : Value}
    (h : ({ m with arena := m.arena.put p new } : Machine).HoldsIn S v) :
    v = new ∨ m.HoldsIn S v := by
  rcases h with h | h
  · exact (Arena.holdsIn_put h).imp_right .inl
  · exact .inr (.inr h)

theorem holdsIn_pop (h : m.pop.HoldsIn S v) : m.HoldsIn S v := by
  unfold pop at h
  split at h
  · exact h
  · rcases h with h | h
    · exact .inl (Arena.holdsIn_freeAll h)
    · exact .inr h

theorem holdsIn_addRecord {record : Record} (h : (m.addRecord record).2.HoldsIn S v) :
    (∃ name, (name, v) ∈ record.fields) ∨ m.HoldsIn S v := by
  rcases h with h | h
  · exact .inr (.inl h)
  · exact (Records.holdsIn_add h).imp_right .inr

theorem holdsIn_setField {id : Nat} {name : String} {new : Value}
    (h : ({ m with records := m.records.setField id name new } : Machine).HoldsIn S v) :
    v = new ∨ m.HoldsIn S v := by
  rcases h with h | h
  · exact .inr (.inl h)
  · exact (Records.holdsIn_setField h).imp_right .inr

theorem not_holds_start (v : Value) : ¬start.Holds v := by
  rintro (⟨handle, values, hbuffer, -⟩ | ⟨record, hrecord, -⟩)
  · cases handle <;> simp [start, Arena.empty, Arena.buffer?] at hbuffer
  · simp [start, Records.empty] at hrecord

end Machine

end MiniC
