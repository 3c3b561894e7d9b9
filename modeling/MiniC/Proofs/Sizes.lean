import MiniC.Proofs.Rows.Made
import MiniC.Proofs.Sizes.Nesting

set_option autoImplicit false

/-! # Sizes of types and sizes of values

The size of a struct type is found from the types of the fields and their bounds; the value that a
struct begins with has its arrays in buffers. Both agree: the single values that belong to the value
take as many bytes as the type says. The buffers that are made on the way are those of the value,
one for each array and one for each row of an array of arrays. -/

namespace MiniC

/-- The number of bytes of a value without parts. -/
def Value.leafSize : Value → Nat
  | .int n => n.width / 8
  | .float _ => 4
  | .double _ => 8
  | .pointer _ => 8
  | .record _ => 0
  | .function _ => 0

/-! ## Shapes -/

namespace Shape

/-- The number of bytes of the values without parts in a shape. -/
def size : Shape → Nat
  | .plain v => v.leafSize
  | .struct _ _ _ parts => sizeAll parts
  | .array _ _ _ parts => sizeAll parts
where
  /-- The number of bytes of the values without parts in several shapes. -/
  sizeAll : List Shape → Nat
    | [] => 0
    | s :: rest => s.size + sizeAll rest

/-- The handles of the buffers that belong to a value, those of its parts first. -/
def buffers : Shape → List Nat
  | .plain _ => []
  | .struct _ _ _ parts => buffersAll parts
  | .array handle _ _ parts => buffersAll parts ++ [handle]
where
  /-- The handles of the buffers that belong to several values. -/
  buffersAll : List Shape → List Nat
    | [] => []
    | s :: rest => s.buffers ++ buffersAll rest

theorem sizeAll_append (parts parts' : List Shape) :
    size.sizeAll (parts ++ parts') = size.sizeAll parts + size.sizeAll parts' := by
  induction parts with
  | nil => exact (Nat.zero_add _).symm
  | cons s parts ih => rw [List.cons_append, size.sizeAll, size.sizeAll, ih, Nat.add_assoc]

theorem buffersAll_append (parts parts' : List Shape) :
    buffers.buffersAll (parts ++ parts') =
      buffers.buffersAll parts ++ buffers.buffersAll parts' := by
  induction parts with
  | nil => rfl
  | cons s parts ih =>
    rw [List.cons_append, buffers.buffersAll, buffers.buffersAll, ih, List.append_assoc]

end Shape

theorem Machine.UnfoldsAll.append {m : Machine} {values values' : List (Nat × Value)}
    {parts parts' : List Shape} (h : m.UnfoldsAll values parts) (h' : m.UnfoldsAll values' parts') :
    m.UnfoldsAll (values ++ values') (parts ++ parts') := by
  induction values generalizing parts with
  | nil =>
    cases h
    exact h'
  | cons value values ih =>
    cases h with
    | cons hfirst hrest => exact .cons hfirst (ih hrest)

/-! ## What is made -/

/-- Whether values were made between two states: they have `size` bytes altogether, and the buffers
that belong to them are the new ones, `count` of them, in the order in which they were made. -/
structure Made (m m' : Machine) (values : List (Nat × Value)) (size count : Nat) : Prop where
  builds : m.Builds m'
  next : m'.arena.next = m.arena.next + count
  shapes : ∃ parts, m'.UnfoldsAll values parts ∧ Shape.size.sizeAll parts = size ∧
    Shape.buffers.buffersAll parts = List.range' m.arena.next count

namespace Made

variable {m t m' : Machine} {values values' : List (Nat × Value)} {size size' count count' : Nat}

theorem nil (m : Machine) : Made m m [] 0 0 :=
  ⟨.refl m, rfl, [], .nil, rfl, rfl⟩

theorem append (h : Made m t values size count) (h' : Made t m' values' size' count') :
    Made m m' (values ++ values') (size + size') (count + count') := by
  obtain ⟨parts, hparts, hsize, hbuffers⟩ := h.shapes
  obtain ⟨parts', hparts', hsize', hbuffers'⟩ := h'.shapes
  refine ⟨h.builds.trans h'.builds, ?_, parts ++ parts',
    (hparts.kept h'.builds.toSpares).append hparts', ?_, ?_⟩
  · rw [h'.next, h.next, Nat.add_assoc]
  · rw [Shape.sizeAll_append, hsize, hsize']
  · rw [Shape.buffersAll_append, hbuffers, hbuffers', h.next, List.range'_append_1]

/-- A value without parts takes no buffer. -/
theorem plain (m : Machine) {rank : Nat} {v : Value} (h : v.IsPlain rank) :
    Made m m [(rank, v)] v.leafSize 0 :=
  ⟨.refl m, rfl, [.plain v], .cons (.plain h) .nil, rfl, rfl⟩

/-- An array is made of its elements, and takes one more buffer. -/
theorem array {rank : Nat} {elements : Array Value}
    (h : Made m t (elements.toList.map fun v => (rank, v)) size count) (target : Option CType) :
    Made m (t.alloc elements).2 [(rank + 1, .pointer ⟨t.arena.next, 0, target⟩)] size
      (count + 1) := by
  obtain ⟨parts, hparts, hsize, hbuffers⟩ := h.shapes
  have hbuilds := t.builds_alloc elements
  have hbuffer : (t.alloc elements).2.arena.buffer? t.arena.next = some elements := by
    rw [Machine.alloc, Arena.buffer?_alloc, if_pos rfl]
  refine ⟨h.builds.trans hbuilds, ?_, [.array t.arena.next 0 target parts],
    .cons (.array hbuffer (hparts.kept hbuilds.toSpares)) .nil, hsize, ?_⟩
  · have hnext : (t.alloc elements).2.arena.next = t.arena.next + 1 := by
      simp [Machine.alloc, Arena.alloc, Arena.next]
    rw [hnext, h.next, Nat.add_assoc]
  · show (Shape.buffers.buffersAll parts ++ [t.arena.next]) ++ [] = _
    rw [List.append_nil, hbuffers, h.next, List.range'_1_concat]

/-- A struct value is made of its fields. -/
theorem struct {record : Record} {rank : Nat}
    (h : Made m t (m.structs.parts record) size count) :
    Made m (t.addRecord record).2 [(rank, .record (t.addRecord record).1)] size count := by
  obtain ⟨parts, hparts, hsize, hbuffers⟩ := h.shapes
  have hbuilds := t.builds_addRecord record
  have hrecord : (t.addRecord record).2.records.all[(t.addRecord record).1]? = some record := by
    simp [Machine.addRecord, Records.add]
  have hstructs : (t.addRecord record).2.structs = m.structs :=
    hbuilds.structs.trans h.builds.structs
  refine ⟨h.builds.trans hbuilds, h.next, [.struct _ record.tag (record.fields.map Prod.fst) parts],
    .cons (.struct hrecord ?_) .nil, hsize, (List.append_nil _).trans hbuffers⟩
  rw [hstructs]
  exact hparts.kept hbuilds.toSpares

end Made

namespace Run

variable {table : StructTable} {rank size count : Nat} {make : Run Value}

/-- Whether a run makes a value, as an array of the given rank, in every state with a struct table;
the value has `size` bytes and `count` buffers. -/
def Makes (table : StructTable) (rank : Nat) (make : Run Value) (size count : Nat) : Prop :=
  ∀ m : Machine, m.structs = table →
    ∃ v m', make.exec m = .ok v m' ∧ Made m m' [(rank, v)] size count

/-- Values that are made one after another, after those in `made`. -/
theorem Makes.makeValues (h : Makes table rank make size count) {m t : Machine}
    (hm : m.structs = table) (made : Array Value) {size₀ count₀ : Nat}
    (hmade : Made m t (made.toList.map fun v => (rank, v)) size₀ count₀) (n : Nat) :
    ∃ values m', (Run.makeValues make n made).exec t = .ok values m' ∧
      Made m m' (values.toList.map fun v => (rank, v)) (size₀ + n * size) (count₀ + n * count) := by
  induction n generalizing t made size₀ count₀ with
  | zero => exact ⟨made, t, rfl, by simpa using hmade⟩
  | succ n ih =>
    obtain ⟨v, u, hv, hfirst⟩ := h t (hmade.builds.structs.trans hm)
    have hpushed : Made m u ((made.push v).toList.map fun v => (rank, v)) (size₀ + size)
        (count₀ + count) := by
      simpa using hmade.append hfirst
    obtain ⟨values, m', hvalues, hall⟩ := ih _ hpushed
    refine ⟨values, m', ?_, ?_⟩
    · rw [Run.makeValues, Traced.exec_bind_of_ok _ hv, hvalues]
    · rwa [Nat.succ_mul, Nat.succ_mul, Nat.add_comm _ size, Nat.add_comm _ count, ← Nat.add_assoc,
        ← Nat.add_assoc]

/-- The number of buffers of an array: one, and those of the rows of an array of arrays. -/
def buffersFor : List Nat → Nat
  | [] => 0
  | [_] => 1
  | n :: dims => 1 + n * buffersFor dims

theorem buffersFor_cons (n : Nat) (dims : List Nat) :
    buffersFor (n :: dims) = 1 + n * buffersFor dims := by
  cases dims <;> rfl

/-- The value of a field with the given dimensions, made of values that are made one by one. -/
def makeField (elem : CType) (make : Run Value) : List Nat → Run Value
  | [] => make
  | n :: dims => do return .pointer (← newArrayOf false elem make (n :: dims))

/-- The elements of an array are made like fields with one dimension less. -/
theorem exec_makeField_cons {elem : CType} {n : Nat} {dims : List Nat} {values : Array Value}
    {m t : Machine} (h : (Run.makeValues (makeField elem make dims) n #[]).exec m = .ok values t) :
    ∃ target, (makeField elem make (n :: dims)).exec m =
      .ok (.pointer ⟨t.arena.next, 0, target⟩) (t.alloc values).2 := by
  have hnew : (newBuffer false values).exec t = .ok t.arena.next (t.alloc values).2 := rfl
  cases dims with
  | nil =>
    rw [makeField] at h
    have harray : (newArrayOf false elem make [n]).exec m =
        .ok ⟨t.arena.next, 0, elem⟩ (t.alloc values).2 := by
      rw [newArrayOf, Traced.exec_bind_of_ok _ h, Traced.exec_bind_of_ok _ hnew]
      rfl
    exact ⟨elem, Traced.exec_bind_of_ok _ harray⟩
  | cons size sizes =>
    rw [makeField] at h
    have harray : (newArrayOf false elem make (n :: size :: sizes)).exec m =
        .ok ⟨t.arena.next, 0, elem.pointer⟩ (t.alloc values).2 := by
      rw [newArrayOf, Traced.exec_bind_of_ok _ h, Traced.exec_bind_of_ok _ hnew]
      rfl
    exact ⟨elem.pointer, Traced.exec_bind_of_ok _ harray⟩

/-- An array has as many elements as its dimensions say, and the buffers of its elements besides its
own. By induction on the dimensions. -/
theorem Makes.makeField (h : Makes table 0 make size count) (elem : CType) (dims : List Nat) :
    Makes table dims.length (Run.makeField elem make dims) (dims.prod * size)
      (buffersFor dims + dims.prod * count) := by
  induction dims with
  | nil => simpa [Run.makeField, buffersFor] using h
  | cons n dims ih =>
    intro m hm
    obtain ⟨values, t, hvalues, hmade⟩ := ih.makeValues hm #[] (.nil m) n
    obtain ⟨target, hexec⟩ := exec_makeField_cons hvalues
    have hsize : 0 + n * (dims.prod * size) = (n :: dims).prod * size := by
      rw [Nat.zero_add, List.prod_cons, Nat.mul_assoc]
    have hcount : 0 + n * (buffersFor dims + dims.prod * count) + 1 =
        buffersFor (n :: dims) + (n :: dims).prod * count := by
      rw [buffersFor_cons, List.prod_cons, Nat.mul_add, Nat.mul_assoc]
      omega
    rw [← hsize, ← hcount]
    exact ⟨_, _, hexec, hmade.array target⟩

/-! ## Single values -/

/-- The number of bytes of a type that is no struct. -/
def scalarSize (t : CType) : Nat :=
  if t.isPointer then StructTable.pointerSize else StructTable.baseSize t.base

theorem sizeWithin_of_not_isStruct {t : CType} (ht : ¬t.isStruct) (depth : Nat) :
    table.sizeWithin depth t = .ok (scalarSize t) := by
  have hstruct (hpointer : ¬t.isPointer) : ¬t.struct?.isSome := fun hsome => ht <| by
    rw [CType.isStruct, hsome, Bool.and_true]
    simpa [CType.isPointer] using hpointer
  unfold scalarSize
  cases depth <;> unfold StructTable.sizeWithin <;> split
  · rfl
  · rw [if_neg (hstruct ‹_›)]
  · rfl
  · rw [if_neg (hstruct ‹_›)]

/-- A single value has the size of its type. -/
theorem leafSize_of_zeroScalar {t : CType} (ht : ¬t.isStruct) (hstorable : t.Storable) :
    ∃ v, Value.zeroScalar t = .ok v ∧ v.IsPlain 0 ∧ v.leafSize = scalarSize t := by
  obtain ⟨isConst, base, levels⟩ := t
  cases levels with
  | cons level levels => exact ⟨_, rfl, rfl, rfl⟩
  | nil =>
    have hbase := hstorable.resolve_left Bool.false_ne_true
    cases base with
    | integer kind unsigned =>
      refine ⟨_, rfl, trivial, ?_⟩
      cases kind <;>
        simp [Value.leafSize, scalarSize, CType.width, CType.isPointer, StructTable.baseSize]
    | float => exact ⟨_, rfl, trivial, rfl⟩
    | double => exact ⟨_, rfl, trivial, rfl⟩
    | longDouble => exact absurd rfl hbase.2.2
    | void => exact absurd rfl hbase.1
    | auto => exact absurd rfl hbase.2.1
    | struct tag decl => exact absurd rfl ht

theorem zeroWithin_of_not_isStruct {t : CType} (ht : ¬t.isStruct) (depth : Nat) :
    zeroWithin depth t = lift (Value.zeroScalar t) := by
  cases depth <;> rw [zeroWithin, if_neg ht]

theorem makes_zeroWithin_of_not_isStruct {t : CType} (ht : ¬t.isStruct) (hstorable : t.Storable)
    (depth : Nat) : Makes table 0 (zeroWithin depth t) (scalarSize t) 0 := by
  obtain ⟨v, hv, hplain, hsize⟩ := leafSize_of_zeroScalar ht hstorable
  rw [zeroWithin_of_not_isStruct ht, hv, ← hsize]
  exact fun m _ => ⟨v, m, rfl, .plain m hplain⟩

/-! ## Structs -/

/-- The fields of a struct value are made one after another. -/
theorem made_mapM {field : Field → Run (String × Value)} {rank : String → Nat}
    {size count : Field → Nat} {l : List Field}
    (h : ∀ f ∈ l, ∀ m : Machine, m.structs = table → ∃ v m',
      (field f).exec m = .ok (f.name, v) m' ∧ Made m m' [(rank f.name, v)] (size f) (count f))
    {m : Machine} (hm : m.structs = table) :
    ∃ fields m', (l.mapM field).exec m = .ok fields m' ∧
      Made m m' (fields.map fun (name, v) => (rank name, v)) (l.map size).sum
        (l.map count).sum := by
  induction l generalizing m with
  | nil => exact ⟨[], m, by rw [List.mapM_nil]; rfl, .nil m⟩
  | cons f l ih =>
    rw [List.forall_mem_cons] at h
    obtain ⟨v, t, hfirst, hmade⟩ := h.1 m hm
    obtain ⟨fields, m', hrest, hall⟩ := ih h.2 (hmade.builds.structs.trans hm)
    refine ⟨(f.name, v) :: fields, m', ?_, hmade.append hall⟩
    rw [List.mapM_cons, Traced.exec_bind_of_ok _ hfirst, Traced.exec_bind_of_ok _ hrest]
    rfl

/-- A struct value is made of fields of which each has the rank that the table says. -/
theorem made_record {field : Field → Run (String × Value)} {tag : String}
    {size count : Field → Nat} {l : List Field}
    (h : ∀ f ∈ l, ∀ m : Machine, m.structs = table → ∃ v m',
      (field f).exec m = .ok (f.name, v) m' ∧
        Made m m' [(table.rankOf tag f.name, v)] (size f) (count f))
    {m : Machine} (hm : m.structs = table) :
    ∃ v m', (do newRecord ⟨tag, ← l.mapM field⟩ : Run Value).exec m = .ok v m' ∧
      Made m m' [(0, v)] (l.map size).sum (l.map count).sum := by
  obtain ⟨fields, t, hfields, hmade⟩ := made_mapM h hm
  have hrecord : (newRecord ⟨tag, fields⟩).exec t =
      .ok (.record (t.addRecord ⟨tag, fields⟩).1) (t.addRecord ⟨tag, fields⟩).2 := rfl
  refine ⟨_, _, (Traced.exec_bind_of_ok _ hfields).trans hrecord, .struct ?_⟩
  rw [hm]
  exact hmade

/-- A field is made like any other of the same dimensions, whether it is an array or not. -/
theorem exec_field {f : Field} {part : CType} (hpart : f.part? = some part)
    (hbounds : f.bounds ≠ some []) {make : CType → Run Value} {m m' : Machine} {v : Value}
    (h : (makeField part (make part) f.dims).exec m = .ok v m') :
    (match f.bounds with
      | none => do return (f.name, ← make f.type)
      | some dims => do
        let elem ← elementType f.type dims
        return (f.name, .pointer (← newArrayOf false elem (make elem) dims)) :
        Run (String × Value)).exec m = .ok (f.name, v) m' := by
  rw [Field.part?] at hpart
  rw [Field.dims] at h
  cases hf : f.bounds with
  | none =>
    rw [hf] at hpart h
    cases hpart
    exact Traced.exec_bind_of_ok _ h
  | some dims =>
    cases dims with
    | nil => exact absurd hf hbounds
    | cons n dims =>
      rw [hf] at hpart h
      dsimp only at hpart ⊢
      rw [elementType, hpart, pure_bind]
      obtain ⟨p, t, hp, hv, -⟩ := Traced.exec_bind_eq_ok h
      cases hv
      exact Traced.exec_bind_of_ok _ hp

end Run

namespace StructTable

variable {table : StructTable}

/-- The sizes of fields are summed up. -/
theorem foldlM_eq_sum {l : List Field} {step : Nat → Field → Except SizeError Nat}
    {size : Field → Nat} (h : ∀ f ∈ l, ∀ total, step total f = .ok (total + size f))
    (total : Nat) : l.foldlM step total = .ok (total + (l.map size).sum) := by
  induction l generalizing total with
  | nil => rfl
  | cons f l ih =>
    rw [List.forall_mem_cons] at h
    rw [List.foldlM_cons, h.1, List.map_cons, List.sum_cons, ← Nat.add_assoc]
    exact ih h.2 _

/-- The size of a struct is that of what its fields are made of, as often as their bounds say. -/
theorem sizeWithin_struct {depth : Nat} {t : CType} (ht : t.isStruct) {part : Field → CType}
    {size : Field → Nat}
    (hpart : ∀ f ∈ table.fieldsOf t, f.part? = some (part f))
    (hsize : ∀ f ∈ table.fieldsOf t, table.sizeWithin depth (part f) = .ok (size f)) :
    table.sizeWithin (depth + 1) t =
      .ok ((table.fieldsOf t).map fun f => f.dims.prod * size f).sum := by
  have hpointer : ¬t.isPointer := fun hpointer => by
    rw [CType.isStruct_of_isPointer hpointer] at ht
    cases ht
  obtain ⟨tag, decl, htag⟩ := CType.exists_struct?_of_isStruct ht
  rw [sizeWithin, if_neg hpointer, if_pos (by rw [htag]; rfl), foldlM_eq_sum ?_ 0, Nat.zero_add]
  intro f hf total
  have hf' := hpart f hf
  rw [Field.part?] at hf'
  rw [Field.dims]
  cases hbounds : f.bounds with
  | none =>
    rw [hbounds] at hf'
    rw [Option.some.inj hf', hsize f hf, Option.getD_none, List.prod_nil, Nat.one_mul]
    rfl
  | some dims =>
    rw [hbounds] at hf'
    dsimp only at hf' ⊢
    rw [hf']
    dsimp only
    rw [hsize f hf, ← List.prod_eq_foldl]
    rfl

/-- The dimensions of the arrays in a value of a type, where structs are nested at most `depth`
deep: each as often as it is met. -/
def arraysWithin (table : StructTable) : Nat → CType → List (List Nat)
  | 0, _ => []
  | depth + 1, t =>
    if t.isStruct then
      (table.currentFields t).flatMap fun f =>
        match f.part? with
        | none => []
        | some part => f.bounds.toList ++
            (List.replicate f.dims.prod (table.arraysWithin depth part)).flatten
    else []

/-- The dimensions of the arrays in a value of a type. -/
def arrays (table : StructTable) (t : CType) : List (List Nat) :=
  table.arraysWithin table.decls.size t

/-- The buffers for the arrays of a struct are those of its fields. -/
theorem sum_arraysWithin {depth : Nat} {t : CType} (ht : t.isStruct) {part : Field → CType}
    (hpart : ∀ f ∈ table.currentFields t, f.part? = some (part f)) :
    ((table.arraysWithin (depth + 1) t).map Run.buffersFor).sum =
      ((table.currentFields t).map fun f => Run.buffersFor f.dims +
        f.dims.prod * ((table.arraysWithin depth (part f)).map Run.buffersFor).sum).sum := by
  rw [arraysWithin, if_pos ht]
  generalize table.currentFields t = fields at hpart ⊢
  induction fields with
  | nil => rfl
  | cons f fields ih =>
    rw [List.forall_mem_cons] at hpart
    have hown : (f.bounds.toList.map Run.buffersFor).sum = Run.buffersFor f.dims := by
      rw [Field.dims]
      cases f.bounds with
      | none => rfl
      | some dims => exact Nat.add_zero _
    rw [List.flatMap_cons, List.map_append, List.sum_append, ih hpart.2, hpart.1]
    dsimp only
    rw [List.map_append, List.sum_append, hown, List.map_flatten, List.sum_flatten,
      List.map_replicate, List.map_replicate, List.sum_replicate_nat]
    rfl

end StructTable

namespace Run

variable {table : StructTable}

theorem rankOf_eq {tag : String} {s : StructDecl} (hlatest : table.latest? tag = some s)
    (hnodup : s.names.Nodup) {f : Field} (hf : f ∈ s.fields) :
    table.rankOf tag f.name = f.dims.length := by
  have hfield : s.field? f.name = some f := by
    cases hfind : s.field? f.name with
    | none => exact absurd (List.mem_map_of_mem hf) (StructDecl.field?_eq_none_iff.mp hfind)
    | some g =>
      have hname : g.name = f.name := by simpa using List.find?_some hfind
      rw [List.inj_on_of_nodup_map hnodup (List.mem_of_find?_eq_some hfind) hf hname]
  rw [StructTable.rankOf, hlatest, Option.bind_some, hfield, Field.dims]
  dsimp only
  cases f.bounds <;> rfl

/-- By induction on the depth. -/
theorem makes_zeroWithin (htable : table.LaidOut) {depth : Nat} {t : CType}
    (hnests : table.Nests depth t) (hbelow : table.Below table.decls.size t)
    (hstorable : t.Storable) :
    ∃ size, table.sizeWithin depth t = .ok size ∧
      Makes table 0 (zeroWithin depth t) size
        ((table.arraysWithin depth t).map buffersFor).sum := by
  induction depth generalizing t with
  | zero =>
    exact ⟨_, sizeWithin_of_not_isStruct hnests 0,
      makes_zeroWithin_of_not_isStruct hnests hstorable 0⟩
  | succ depth ih =>
    by_cases hstruct : t.isStruct
    · have hfields : ∀ f ∈ table.fieldsOf t, ∃ part size, f.part? = some part ∧
          table.sizeWithin depth part = .ok size ∧ Makes table 0 (zeroWithin depth part) size
            ((table.arraysWithin depth part).map buffersFor).sum := by
        intro f hf
        obtain ⟨part, hpart, hstorable', hbelow'⟩ :=
          (htable.lays hbelow hstruct hf).part
        obtain ⟨size, hsize, hmakes⟩ := ih (hnests hstruct f hf part hpart) hbelow' hstorable'
        exact ⟨part, size, hpart, hsize, hmakes⟩
      choose! part size hpart hsize hmakes using hfields
      refine ⟨_, StructTable.sizeWithin_struct hstruct hpart hsize, ?_⟩
      obtain ⟨tag, decl, s, htag, -, -, hlatest, hs, -⟩ := hbelow.latest?_eq hstruct
      have hlays : ∀ f ∈ table.fieldsOf t, table.Lays f := fun f =>
        htable.lays hbelow hstruct
      -- No struct with the same tag came later, so a value gets the fields of the type itself.
      rw [← hbelow.currentFields_eq hstruct] at hs hlays hpart hmakes ⊢
      rw [StructTable.sum_arraysWithin hstruct hpart]
      intro m hm
      rw [zeroWithin, if_pos hstruct, Traced.exec_bind_of_ok _ (Traced.exec_get m), hm]
      have htag' : t.tag?.getD "" = tag := by
        rw [CType.tag?, htag]
        rfl
      rw [htag']
      refine made_record (fun f hf m hm => ?_) hm
      rw [rankOf_eq hlatest (htable.names tag s hlatest) (hs ▸ hf)]
      obtain ⟨v, m', hv, hmade⟩ := (hmakes f hf).makeField (part f) f.dims m hm
      exact ⟨v, m', exec_field (hpart f hf) (hlays f hf).bounds hv, hmade⟩
    · rw [StructTable.arraysWithin, if_neg hstruct]
      exact ⟨_, sizeWithin_of_not_isStruct hstruct _,
        makes_zeroWithin_of_not_isStruct hstruct hstorable _⟩

/-- The value that a struct of a laid out table begins with is made, and takes as many bytes as its
type says. The buffers that are made are those of the value, one after another: as many as there are
arrays and rows in it. -/
theorem zeroValue_size {m : Machine} (htable : m.structs.LaidOut) {t : CType} (ht : t.isStruct)
    (hknown : m.structs.Below m.structs.decls.size t) :
    ∃ v m' s, (zeroValue t).exec m = .ok v m' ∧ m'.Unfolds 0 v s ∧
      m.structs.sizeOf t = .ok s.size ∧
      s.buffers = List.range' m.arena.next ((m.structs.arrays t).map buffersFor).sum ∧
      m'.arena.next = m.arena.next + ((m.structs.arrays t).map buffersFor).sum := by
  have hstorable : t.Storable := by
    obtain ⟨tag, decl, htag⟩ := CType.exists_struct?_of_isStruct ht
    rw [CType.Storable, CType.base_of_struct? htag]
    exact .inr ⟨nofun, nofun, nofun⟩
  obtain ⟨size, hsize, hmakes⟩ :=
    makes_zeroWithin htable (htable.nests hknown) hknown hstorable
  obtain ⟨v, m', hv, hmade⟩ := hmakes m rfl
  obtain ⟨parts, hparts, hbytes, hbuffers⟩ := hmade.shapes
  cases hparts with
  | cons hfirst hrest =>
    cases hrest
    rw [Shape.size.sizeAll, Shape.size.sizeAll, Nat.add_zero] at hbytes
    rw [Shape.buffers.buffersAll, Shape.buffers.buffersAll, List.append_nil] at hbuffers
    exact ⟨v, m', _, hv, hfirst, hbytes ▸ hsize, hbuffers, hmade.next⟩

/-- The structs `struct P {int a; char b[3];}` and
`struct Q {struct P g[2][2]; struct Q *next; double d;}`. -/
def gridTable : StructTable :=
  ⟨#[⟨"P", [⟨"a", .int, none⟩, ⟨"b", CType.char.pointers 1, some [3]⟩]⟩,
    ⟨"Q", [⟨"g", (CType.ofBase (.struct "P" 0)).pointers 2, some [2, 2]⟩,
      ⟨"next", (CType.ofBase (.struct "Q" 1)).pointer, none⟩, ⟨"d", .ofBase .double, none⟩]⟩]⟩

theorem laidOut_gridTable : gridTable.LaidOut := by
  have hlayered : gridTable.Layered := by
    intro decl s hs f hf t ht
    match decl with
    | 0 =>
      cases hs
      obtain rfl | rfl : f = _ ∨ f = _ := by simpa [gridTable] using hf
      · cases ht
        nofun
      · cases ht
        nofun
    | 1 =>
      cases hs
      obtain rfl | rfl | rfl : f = _ ∨ f = _ ∨ f = _ := by simpa [gridTable] using hf
      · cases ht
        exact fun _ => ⟨"P", 0, rfl, rfl, Nat.zero_lt_one⟩
      · cases ht
        nofun
      · cases ht
        nofun
    | decl + 2 => cases hs
  refine hlayered.laidOut (by decide) fun s hs f hf => ?_
  obtain rfl | rfl : s = _ ∨ s = _ := by simpa [gridTable] using hs
  · obtain rfl | rfl : f = _ ∨ f = _ := by simpa using hf
    · exact ⟨by decide, _, rfl, by decide⟩
    · exact ⟨by decide, _, rfl, by decide⟩
  · obtain rfl | rfl | rfl : f = _ ∨ f = _ ∨ f = _ := by simpa using hf
    · exact ⟨by decide, _, rfl, by decide⟩
    · exact ⟨by decide, _, rfl, by decide⟩
    · exact ⟨by decide, _, rfl, by decide⟩

/-- A value of the struct `Q` has four times four and three bytes, and a pointer and a `double`. Its
buffers are one for the array `g`, two for the rows, and one for each of the four arrays in them. -/
theorem zeroValue_size_grid : ∃ v m' s,
    (zeroValue (.ofBase (.struct "Q" 1))).exec { Machine.start with structs := gridTable } =
        .ok v m' ∧
      m'.Unfolds 0 v s ∧ s.size = 44 ∧ s.buffers = [1, 2, 3, 4, 5, 6, 7] ∧ m'.arena.next = 8 := by
  obtain ⟨v, m', s, hv, hshape, hsize, hbuffers, hnext⟩ :=
    @zeroValue_size { Machine.start with structs := gridTable } laidOut_gridTable
      (.ofBase (.struct "Q" 1)) rfl fun _ => ⟨"Q", 1, rfl, rfl, by decide⟩
  have hbytes : gridTable.sizeOf (.ofBase (.struct "Q" 1)) = .ok 44 := by rfl
  have hcount : ((gridTable.arrays (.ofBase (.struct "Q" 1))).map buffersFor).sum = 7 := by rfl
  refine ⟨v, m', s, hv, hshape, Except.ok.inj (hsize.symm.trans hbytes), ?_, ?_⟩
  · exact hbuffers.trans (congrArg (List.range' 1) hcount)
  · exact hnext.trans (congrArg (1 + ·) hcount)

end Run

end MiniC
