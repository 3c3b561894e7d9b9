import MiniC.Proofs.Arena
import MiniC.Proofs.Ranges.Held
import MiniC.Proofs.Trace
import MiniC.Run.Place

set_option autoImplicit false

/-! # What belongs to a value

A struct value has its fields, and an array its elements; to a struct belong the arrays among its
fields, as many dimensions deep as their bounds say, and the structs among them. A pointer that is
no such array belongs to it, but not what it points to. The shape of a value is all this laid open,
with the numbers of the buffers and struct values that were gone through. A change of a state that
leaves these alone leaves the shape as it is. -/

namespace MiniC

/-! ## Locations -/

namespace Location

/-- Whether two states have the same at a location. -/
def Same (m m' : Machine) : Location → Prop
  | .buffer handle => m'.arena.buffer? handle = m.arena.buffer? handle
  | .record id => m'.records.all[id]? = m.records.all[id]?

theorem Same.refl (m : Machine) (l : Location) : l.Same m m := by
  cases l <;> rfl

theorem Same.trans {m m' m'' : Machine} {l : Location} (h : l.Same m m') (h' : l.Same m' m'') :
    l.Same m m'' := by
  cases l with
  | buffer handle => exact Eq.trans h' h
  | record id => exact Eq.trans h' h

end Location

namespace Machine

/-- Whether a state has all that another one has, as it is there. -/
structure Spares (m m' : Machine) : Prop where
  structs : m'.structs = m.structs
  made : ∀ l : Location, l.Made m → l.Made m'
  same : ∀ l : Location, l.Made m → l.Same m m'

theorem Spares.refl (m : Machine) : m.Spares m where
  structs := rfl
  made _ := id
  same l _ := .refl m l

theorem Spares.trans {m m' m'' : Machine} (h : m.Spares m') (h' : m'.Spares m'') :
    m.Spares m'' where
  structs := h'.structs.trans h.structs
  made l hl := h'.made l (h.made l hl)
  same l hl := (h.same l hl).trans (h'.same l (h.made l hl))

/-- Whether a state has all that another one has, and buffers and struct values in addition at
most. -/
structure Adds (m m' : Machine) : Prop extends m.Spares m' where
  rest : m' = { m with arena := m'.arena, records := m'.records }

theorem Adds.refl (m : Machine) : m.Adds m :=
  ⟨.refl m, rfl⟩

theorem Adds.trans {m m' m'' : Machine} (h : m.Adds m') (h' : m'.Adds m'') : m.Adds m'' where
  toSpares := h.toSpares.trans h'.toSpares
  rest := by
    have hrest := h'.rest
    rw [h.rest] at hrest
    exact hrest

/-- Whether the buffer or the struct value that a value names was made. -/
def Knows (m : Machine) : Value → Prop
  | .record id => (Location.record id).Made m
  | .pointer p => (Location.buffer p.buffer).Made m
  | _ => True

instance (m : Machine) : DecidablePred m.Knows
  | .record id => inferInstanceAs (Decidable ((Location.record id).Made m))
  | .pointer p => inferInstanceAs (Decidable ((Location.buffer p.buffer).Made m))
  | .int _ | .float _ | .double _ | .function _ => inferInstanceAs (Decidable True)

/-- Whether all buffers and struct values that are named in a state were made. -/
def Sound (m : Machine) : Prop :=
  ∀ v, m.Holds v → m.Knows v

/-- A state is sound if all that stands in its buffers and struct values is. -/
theorem sound_of_forall {m : Machine}
    (hslots : ∀ buffer ∈ m.arena.buffers, ∀ values ∈ buffer, ∀ v ∈ values, m.Knows v)
    (hfields : ∀ record ∈ m.records.all, ∀ field ∈ record.fields, m.Knows field.2) : m.Sound := by
  rintro v (⟨handle, values, hbuffer, hv⟩ | ⟨record, hrecord, name, hfield⟩)
  · cases handle with
    | zero => cases hbuffer
    | succ n =>
      have hmem := Array.mem_of_getElem? (Option.join_eq_some_iff.mp hbuffer)
      exact hslots _ hmem values rfl v hv
  · exact hfields record hrecord (name, v) hfield

theorem adds_alloc (m : Machine) (values : Array Value) : m.Adds (m.alloc values).2 where
  rest := rfl
  structs := rfl
  made l hl := by
    cases l with
    | buffer handle => exact Nat.lt_of_lt_of_le hl (Arena.grows_alloc m.arena values).next
    | record id => exact hl
  same l hl := by
    cases l with
    | buffer handle =>
      show (m.arena.alloc values).2.buffer? handle = _
      rw [Arena.buffer?_alloc, if_neg (Nat.ne_of_lt hl)]
    | record id => rfl

theorem adds_addRecord (m : Machine) (record : Record) : m.Adds (m.addRecord record).2 where
  rest := rfl
  structs := rfl
  made l hl := by
    cases l with
    | buffer handle => exact hl
    | record id =>
      show id < (m.records.all.push record).size
      rw [Array.size_push]
      exact Nat.lt_succ_of_lt hl
  same l hl := by
    cases l with
    | buffer handle => rfl
    | record id => exact Array.getElem?_push_lt hl |>.trans (Array.getElem?_eq_getElem hl).symm

theorem spares_bind (m : Machine) (id : Nat) (t : CType) (v : Value) :
    m.Spares (m.bind id t v) := by
  have halloc := m.adds_alloc #[v]
  exact ⟨rfl, halloc.made, halloc.same⟩

end Machine

/-! ## Shapes -/

/-- A value with what belongs to it: a value without parts, a struct value with its tag and the
names and values of its fields, or an array with its pointer and the values in its buffer. -/
inductive Shape
  | plain (v : Value)
  | struct (id : Nat) (tag : String) (names : List String) (parts : List Shape)
  | array (handle : Nat) (index : Int) (target : Option CType) (parts : List Shape)

/-- A shape without the numbers in it. -/
inductive Content
  | plain (v : Value)
  | struct (tag : String) (names : List String) (parts : List Content)
  | array (index : Int) (target : Option CType) (parts : List Content)

namespace Shape

/-- The buffers and struct values that belong to a value. -/
def locations : Shape → List Location
  | .plain _ => []
  | .struct id _ _ parts => .record id :: locationsAll parts
  | .array handle _ _ parts => .buffer handle :: locationsAll parts
where
  /-- The buffers and struct values that belong to several values. -/
  locationsAll : List Shape → List Location
    | [] => []
    | s :: rest => s.locations ++ locationsAll rest

/-- What a value has, whatever the numbers of its buffers and struct values are. -/
def content : Shape → Content
  | .plain v => .plain v
  | .struct _ tag names parts => .struct tag names (contentAll parts)
  | .array _ index target parts => .array index target (contentAll parts)
where
  /-- What several values have. -/
  contentAll : List Shape → List Content
    | [] => []
    | s :: rest => s.content :: contentAll rest

end Shape

/-- Whether a value has no parts, where a pointer stands for an array of the given rank. -/
def Value.IsPlain (rank : Nat) : Value → Prop
  | .record _ => False
  | .pointer _ => rank = 0
  | _ => True

/-- The values in the fields of a struct value, each with its rank as an array. -/
def StructTable.parts (structs : StructTable) (record : Record) : List (Nat × Value) :=
  record.fields.map fun (name, v) => (structs.rankOf record.tag name, v)

namespace Machine

mutual

/-- Whether a value, as an array of the given rank, has a shape in a state. -/
inductive Unfolds (m : Machine) : Nat → Value → Shape → Prop
  | plain {rank : Nat} {v : Value} (hplain : v.IsPlain rank) : Unfolds m rank v (.plain v)
  | struct {rank id : Nat} {record : Record} {parts : List Shape}
    (hrecord : m.records.all[id]? = some record)
    (hparts : UnfoldsAll m (m.structs.parts record) parts) :
    Unfolds m rank (.record id) (.struct id record.tag (record.fields.map Prod.fst) parts)
  | array {rank : Nat} {p : Pointer} {values : Array Value} {parts : List Shape}
    (hbuffer : m.arena.buffer? p.buffer = some values)
    (hparts : UnfoldsAll m (values.toList.map fun v => (rank, v)) parts) :
    Unfolds m (rank + 1) (.pointer p) (.array p.buffer p.index p.target parts)

/-- Whether values, each as an array of its rank, have shapes in a state. -/
inductive UnfoldsAll (m : Machine) : List (Nat × Value) → List Shape → Prop
  | nil : UnfoldsAll m [] []
  | cons {rank : Nat} {v : Value} {rest : List (Nat × Value)} {s : Shape} {parts : List Shape}
    (hfirst : Unfolds m rank v s) (hrest : UnfoldsAll m rest parts) :
    UnfoldsAll m ((rank, v) :: rest) (s :: parts)

end

variable {m m' : Machine}

mutual

/-- What belongs to a value was made. -/
theorem Unfolds.made {rank : Nat} {v : Value} {s : Shape} (h : m.Unfolds rank v s)
    (l : Location) (hl : l ∈ s.locations) : l.Made m := by
  cases h with
  | plain _ => cases hl
  | struct hrecord hparts =>
    rcases List.mem_cons.mp hl with rfl | hl
    · exact (Array.getElem?_eq_some_iff.mp hrecord).1
    · exact hparts.made l hl
  | array hbuffer hparts =>
    rcases List.mem_cons.mp hl with rfl | hl
    · exact (Arena.Live.bounds (by rw [Arena.Live, hbuffer]; rfl)).2
    · exact hparts.made l hl

theorem UnfoldsAll.made {values : List (Nat × Value)} {parts : List Shape}
    (h : m.UnfoldsAll values parts) (l : Location)
    (hl : l ∈ Shape.locations.locationsAll parts) : l.Made m := by
  cases h with
  | nil => cases hl
  | cons hfirst hrest =>
    rcases List.mem_append.mp hl with hl | hl
    · exact hfirst.made l hl
    · exact hrest.made l hl

end

mutual

/-- A value has the same shape in a state that has the same at all that belongs to it. -/
theorem Unfolds.of_same (hstructs : m'.structs = m.structs) {rank : Nat} {v : Value} {s : Shape}
    (h : m.Unfolds rank v s) (hsame : ∀ l ∈ s.locations, l.Same m m') : m'.Unfolds rank v s := by
  cases h with
  | plain hplain => exact .plain hplain
  | struct hrecord hparts =>
    have hown : m'.records.all[_]? = m.records.all[_]? := hsame _ List.mem_cons_self
    refine .struct (hown.trans hrecord) ?_
    rw [hstructs]
    exact hparts.of_same hstructs fun l hl => hsame l (List.mem_cons_of_mem _ hl)
  | array hbuffer hparts =>
    have hown : m'.arena.buffer? _ = m.arena.buffer? _ := hsame _ List.mem_cons_self
    exact .array (hown.trans hbuffer)
      (hparts.of_same hstructs fun l hl => hsame l (List.mem_cons_of_mem _ hl))

theorem UnfoldsAll.of_same (hstructs : m'.structs = m.structs) {values : List (Nat × Value)}
    {parts : List Shape} (h : m.UnfoldsAll values parts)
    (hsame : ∀ l ∈ Shape.locations.locationsAll parts, l.Same m m') :
    m'.UnfoldsAll values parts := by
  cases h with
  | nil => exact .nil
  | cons hfirst hrest =>
    exact .cons (hfirst.of_same hstructs fun l hl => hsame l (List.mem_append_left _ hl))
      (hrest.of_same hstructs fun l hl => hsame l (List.mem_append_right _ hl))

end

theorem Unfolds.kept (hspares : m.Spares m') {rank : Nat} {v : Value} {s : Shape}
    (h : m.Unfolds rank v s) : m'.Unfolds rank v s :=
  h.of_same hspares.structs fun l hl => hspares.same l (h.made l hl)

theorem UnfoldsAll.kept (hspares : m.Spares m') {values : List (Nat × Value)} {parts : List Shape}
    (h : m.UnfoldsAll values parts) : m'.UnfoldsAll values parts :=
  h.of_same hspares.structs fun l hl => hspares.same l (h.made l hl)

end Machine

namespace Machine

variable {m : Machine}

/-- Nothing belongs to values without parts. -/
theorem UnfoldsAll.locations_eq_nil {values : List (Nat × Value)} {parts : List Shape}
    (h : m.UnfoldsAll values parts) (hplain : ∀ part ∈ values, part.2.IsPlain part.1) :
    Shape.locations.locationsAll parts = [] := by
  induction parts generalizing values with
  | nil => rfl
  | cons s parts ih =>
    cases h with
    | cons hfirst hrest =>
      rw [List.forall_mem_cons] at hplain
      rw [Shape.locations.locationsAll, ih hrest hplain.2]
      cases hfirst with
      | plain _ => rfl
      | struct _ _ => exact hplain.1.elim
      | array _ _ => exact (Nat.succ_ne_zero _ hplain.1).elim

end Machine

/-! ## Stores -/

namespace Arena

theorem buffer?_put_self {a : Arena} {p : Pointer} {values : Array Value}
    (h : a.buffer? p.buffer = some values) (v : Value) :
    (a.put p v).buffer? p.buffer = some (values.setIfInBounds p.index.toNat v) := by
  cases hp : p.buffer with
  | zero =>
    rw [hp] at h
    cases h
  | succ n =>
    rw [hp, buffer?] at h
    rw [put, buffer?, hp, Nat.add_sub_cancel, Array.getElem?_modify, if_pos rfl,
      Option.join_eq_some_iff.mp h]
    rfl

/-- A pointer points to a slot if it is not null, its buffer is live, and its index lies within. -/
theorem locate_eq_ok_iff {a : Arena} {p : Pointer} {values : Array Value} {i : Nat} :
    a.locate p = .ok (values, i) ↔ p.isNull = false ∧ a.buffer? p.buffer = some values ∧
      0 ≤ p.index ∧ p.index < Int.ofNat values.size ∧ p.index.toNat = i := by
  cases hnull : p.isNull with
  | true => simp [locate, hnull]
  | false =>
    cases hbuffer : a.buffer? p.buffer with
    | none => simp [locate, hnull, hbuffer]
    | some known =>
      have hlocate : a.locate p = if 0 ≤ p.index && p.index < Int.ofNat known.size then
          .ok (known, p.index.toNat) else .error .invalidIndex := by
        rw [locate, hnull, if_neg Bool.false_ne_true, hbuffer]
      rw [hlocate]
      by_cases hbounds : 0 ≤ p.index ∧ p.index < Int.ofNat known.size
      · rw [if_pos (by simpa using hbounds)]
        constructor
        · intro h
          cases h
          exact ⟨rfl, rfl, hbounds.1, hbounds.2, rfl⟩
        · rintro ⟨-, hvalues, -, -, rfl⟩
          cases hvalues
          rfl
      · rw [if_neg (by simpa using hbounds)]
        constructor
        · intro h
          cases h
        · rintro ⟨-, hvalues, hlow, hhigh, -⟩
          cases hvalues
          exact absurd ⟨hlow, hhigh⟩ hbounds

/-- What is read from a slot is what was put there. -/
theorem load_put {a : Arena} {p : Pointer} {v : Value} {place : Array Value × Nat}
    (h : a.locate p = .ok place) : (a.put p v).load p = .ok v := by
  obtain ⟨values, i⟩ := place
  obtain ⟨hnull, hbuffer, hlow, hhigh, rfl⟩ := locate_eq_ok_iff.mp h
  have hsize : (values.setIfInBounds p.index.toNat v).size = values.size :=
    Array.size_setIfInBounds
  have hplace := locate_eq_ok_iff.mpr
    ⟨hnull, buffer?_put_self hbuffer v, hlow, by rwa [hsize], rfl⟩
  have hslot : (values.setIfInBounds p.index.toNat v)[p.index.toNat]? = some v := by
    rw [Int.ofNat_eq_natCast] at hhigh
    rw [Array.getElem?_setIfInBounds_self, if_pos (by omega)]
  rw [load, hplace]
  simp only [bind, Except.bind, hslot]
  rfl

end Arena

namespace Records

theorem eq_of_field?_setField {r : Records} {id : Nat} {name : String} {v w : Value}
    (h : (r.setField id name v).field? id name = some w) : w = v := by
  rw [field?, get, setField, Array.getElem?_modify, if_pos rfl] at h
  cases hrecord : r.all[id]? with
  | none =>
    rw [hrecord] at h
    cases h
  | some record =>
    rw [hrecord] at h
    dsimp only [Option.map_some, Option.getD_some] at h
    rw [lookup_replace, if_pos rfl] at h
    obtain ⟨_, -, rfl⟩ := Option.map_eq_some_iff.mp h
    rfl

end Records

namespace Run

variable {m m' : Machine}

/-- A slot is stored to only if there is one. -/
theorem exec_store {p : Pointer} {v : Value} (h : (Run.store p v).exec m = .ok () m') :
    (∃ place, m.arena.locate p = .ok place) ∧ m' = { m with arena := m.arena.put p v } := by
  unfold Run.store at h
  rw [Traced.exec_bind_of_ok _ (Traced.exec_get m)] at h
  cases hplace : m.arena.locate p with
  | error cause =>
    rw [hplace] at h
    cases h
  | ok place =>
    rw [hplace] at h
    cases h
    exact ⟨⟨place, rfl⟩, rfl⟩

/-- A store changes only the location of its place. -/
theorem same_of_write {place : Place} {v : Value} (h : (place.write v).exec m = .ok () m') :
    m'.structs = m.structs ∧ ∀ l : Location, l ≠ place.location → l.Same m m' := by
  cases place with
  | slot p =>
    obtain ⟨⟨⟨values, i⟩, hplace⟩, rfl⟩ := exec_store h
    have hlive : m.arena.Live p.buffer := by
      rw [Arena.Live, Arena.buffer?_of_locate hplace]
      rfl
    refine ⟨rfl, fun l hl => ?_⟩
    cases l with
    | buffer handle =>
      exact m.arena.buffer?_put_of_ne p v (fun heq => hl (congrArg _ heq))
        (Nat.ne_of_gt hlive.bounds.1)
    | record id => rfl
  | field record name type =>
    cases h
    refine ⟨rfl, fun l hl => ?_⟩
    cases l with
    | buffer handle => rfl
    | record id =>
      show (m.records.setField record name v).all[id]? = _
      rw [Records.setField, Array.getElem?_modify, if_neg fun heq => hl (congrArg _ heq.symm)]

/-- What is read from a place after a store to it is what was stored. -/
theorem read_of_write {place : Place} {v w : Value} {m'' : Machine}
    (hwrite : (place.write v).exec m = .ok () m') (hread : place.read.exec m' = .ok w m'') :
    w = v ∧ m'' = m' := by
  cases place with
  | slot p =>
    obtain ⟨⟨⟨values, i⟩, hplace⟩, rfl⟩ := exec_store hwrite
    rw [Place.read, Run.load, Traced.exec_bind_of_ok _ (Traced.exec_get _),
      Arena.load_put hplace] at hread
    cases hread
    exact ⟨rfl, rfl⟩
  | field record name type =>
    cases hwrite
    rw [Place.read, Traced.exec_bind_of_ok _ (Traced.exec_get _)] at hread
    dsimp only at hread
    split at hread
    · cases hread
    · rename_i u hfield
      cases hread
      exact ⟨Records.eq_of_field?_setField hfield, rfl⟩

/-- Stores to places, one after another. -/
def writeAll (stores : List (Place × Value)) : Run Unit :=
  stores.forM fun (place, v) => place.write v

theorem same_of_writeAll {stores : List (Place × Value)}
    (h : (writeAll stores).exec m = .ok () m') :
    m'.structs = m.structs ∧
      ∀ l : Location, (∀ store ∈ stores, l ≠ store.1.location) → l.Same m m' := by
  induction stores generalizing m with
  | nil =>
    cases h
    exact ⟨rfl, fun l _ => .refl _ l⟩
  | cons store stores ih =>
    obtain ⟨_, m₁, hfirst, hrest, -⟩ := Traced.exec_bind_eq_ok h
    obtain ⟨hstructs, hsame⟩ := same_of_write hfirst
    obtain ⟨hstructs', hsame'⟩ := ih hrest
    refine ⟨hstructs'.trans hstructs, fun l hl => ?_⟩
    rw [List.forall_mem_cons] at hl
    exact (hsame l hl.1).trans (hsame' l hl.2)

/-- Stores to other places than those that belong to a value leave its shape as it is. -/
theorem unfolds_writeAll {stores : List (Place × Value)}
    (h : (writeAll stores).exec m = .ok () m') {rank : Nat} {v : Value} {s : Shape}
    (hs : m.Unfolds rank v s) (hapart : ∀ store ∈ stores, store.1.location ∉ s.locations) :
    m'.Unfolds rank v s := by
  obtain ⟨hstructs, hsame⟩ := same_of_writeAll h
  exact hs.of_same hstructs fun l hl =>
    hsame l fun store hstore heq => hapart store hstore (heq ▸ hl)

end Run

end MiniC
