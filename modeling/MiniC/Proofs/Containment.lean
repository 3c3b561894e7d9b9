import MiniC.Proofs.Bounds
import MiniC.Proofs.Containment.Layers
import MiniC.Proofs.Ranges
import MiniC.Proofs.Types

set_option autoImplicit false

/-! # Accepted struct types are finite

The analysis refuses a field that has the type of its own struct. It looks at the type of the field
with a pointer level for each dimension, so that a field that is an array of its own struct is
accepted, and the run finds no end in it. Where no struct has such a field, the struct table of a
run is layered at every moment: all struct types have a size, and values to begin with. -/

namespace MiniC

/-! ## The structs of a program -/

/-- The tag of the struct that a type name stands for, if it stands for a struct. -/
def TypeName.structTag? (name : TypeName) : Option String :=
  match CType.ofWords (fun _ => some 0) name.words with
  | .error _ => none
  | .ok t => if t.isStruct then t.tag? else none

theorem TypeName.structTag?_eq {name : TypeName} {find? : String → Option Nat} {t : CType}
    (h : CType.ofWords find? name.words = .ok t) :
    name.structTag? = if t.isStruct then t.tag? else none := by
  obtain ⟨t', h'⟩ : ∃ t', CType.ofWords (fun _ => some 0) name.words = .ok t' :=
    CType.exists_ofWords h fun _ => rfl
  have hsame := CType.undeclared_eq_of_ofWords h' h
  rw [structTag?, h']
  dsimp only
  rw [← CType.isStruct_undeclared, hsame, CType.isStruct_undeclared, ← CType.tag?_undeclared, hsame,
    CType.tag?_undeclared]

/-- The tag of the struct that a piece of a program declares. -/
def Item.structTag? : Item → Option String
  | .struct name _ => some name.token.text
  | _ => none

/-- Whether a piece of a program declares a struct with a field that is an array of that struct. -/
def Item.NestsItself : Item → Prop
  | .struct name fields => ∃ d ∈ fields, d.dims ≠ [] ∧ d.type.structTag? = some name.token.text
  | _ => False

instance : DecidablePred Item.NestsItself := fun i =>
  match i with
  | .struct name fields => decidable_of_iff
      (∃ d ∈ fields, d.dims.isEmpty = false ∧ d.type.structTag? = some name.token.text)
      (by simp [Item.NestsItself])
  | .directive _ => .isFalse id
  | .function _ _ _ _ => .isFalse id
  | .prototype _ _ _ => .isFalse id
  | .declaration _ => .isFalse id

/-! ## Values to begin with -/

namespace Run

variable {α β : Type} {table : StructTable}

/-- Whether a run that begins with a struct table keeps it, and does not stop because structs are
nested too deep. -/
def Shallow (table : StructTable) (x : Run α) : Prop :=
  ∀ m : Machine, m.structs = table →
    match x.exec m with
    | .ok _ t => t.structs = table
    | .error stop _ => stop ≠ .tooDeep

theorem shallow_pure (a : α) : Shallow table (pure a : Run α) :=
  fun _ hm => hm

theorem shallow_stop {stop : Stop} (h : stop ≠ .tooDeep) :
    Shallow table (throw stop : Run α) :=
  fun _ _ => h

theorem shallow_stop_bind {stop : Stop} (h : stop ≠ .tooDeep) (f : α → Run β) :
    Shallow table ((throw stop : Run α) >>= f) :=
  fun _ _ => h

theorem shallow_modifyGet {f : Machine → α × Machine} (hf : ∀ m, (f m).2.structs = m.structs) :
    Shallow table (modifyGet f : Run α) :=
  fun m hm => (hf m).trans hm

theorem shallow_lift (x : Except Fault α) : Shallow table (lift x) := by
  cases x with
  | ok a => exact shallow_pure a
  | error cause => exact shallow_stop nofun

theorem Shallow.bind {x : Run α} {f : α → Run β} (hx : Shallow table x)
    (hf : ∀ a, Shallow table (f a)) : Shallow table (x >>= f) := by
  intro m hm
  have h := hx m hm
  cases hexec : x.exec m with
  | ok a t =>
    rw [hexec] at h
    rw [Traced.exec_bind_of_ok f hexec]
    exact hf a t h
  | error stop t =>
    rw [hexec] at h
    rw [Traced.exec_bind_of_error f hexec]
    exact h

/-- What is done with a state that has the struct table. -/
theorem shallow_observe {f : Machine → Run α}
    (hf : ∀ m : Machine, m.structs = table → Shallow table (f m)) : Shallow table (get >>= f) :=
  fun m hm => hf m hm m hm

theorem Shallow.mapList {f : α → Run β} {l : List α} (h : ∀ a ∈ l, Shallow table (f a)) :
    Shallow table (l.mapM f) := by
  induction l with
  | nil =>
    rw [List.mapM_nil]
    exact shallow_pure []
  | cons a l ih =>
    rw [List.mapM_cons]
    refine (h a List.mem_cons_self).bind fun b => ?_
    exact (ih fun c hc => h c (List.mem_cons_of_mem a hc)).bind fun bs => shallow_pure (b :: bs)

theorem shallow_newBuffer (owned : Bool) (values : Array Value) :
    Shallow table (newBuffer owned values) := by
  cases owned with
  | true => exact shallow_modifyGet fun _ => rfl
  | false => exact shallow_modifyGet fun _ => rfl

theorem Shallow.makeValues {make : Run Value} (hmake : Shallow table make) (n : Nat)
    (made : Array Value) : Shallow table (Run.makeValues make n made) := by
  induction n generalizing made with
  | zero => exact shallow_pure made
  | succ n ih => exact hmake.bind fun v => ih (made.push v)

theorem Shallow.newArrayOf {make : Run Value} (hmake : Shallow table make) (owned : Bool)
    (elem : CType) (sizes : List Nat) : Shallow table (Run.newArrayOf owned elem make sizes) := by
  induction sizes with
  | nil => exact (shallow_newBuffer owned _).bind fun _ => shallow_pure _
  | cons n sizes ih =>
    cases sizes with
    | nil =>
      refine (hmake.makeValues n #[]).bind fun values => ?_
      exact (shallow_newBuffer owned values).bind fun _ => shallow_pure _
    | cons size sizes =>
      have hrow : Shallow table (do
          return .pointer (← Run.newArrayOf owned elem make (size :: sizes)) : Run Value) :=
        ih.bind fun row => shallow_pure _
      refine (hrow.makeValues n #[]).bind fun rows => ?_
      exact (shallow_newBuffer owned rows).bind fun _ => shallow_pure _

/-- The values of a type below a bound are made without nesting more structs than that. By
induction on the bound. -/
theorem shallow_zeroWithin (htable : table.Layered) {bound : Nat} {t : CType}
    (ht : table.Below bound t) : Shallow table (zeroWithin bound t) := by
  induction bound generalizing t with
  | zero =>
    rw [zeroWithin]
    split
    · rename_i hstruct
      obtain ⟨_, _, -, -, hlt⟩ := ht hstruct
      exact absurd hlt (Nat.not_lt_zero _)
    · exact shallow_lift _
  | succ bound ih =>
    rw [zeroWithin]
    split
    · rename_i hstruct
      refine shallow_observe fun m hm => ?_
      rw [hm, ht.currentFields_eq hstruct]
      refine (Shallow.mapList fun f hf => ?_).bind fun fields => ?_
      · have hpart : ∀ part, f.part? = some part → Shallow table (zeroWithin bound part) :=
          fun part hpart => ih (htable.below_of_fieldsOf ht hstruct hf hpart)
        cases hbounds : f.bounds with
        | none =>
          have hvalue := hpart f.type (by rw [Field.part?, hbounds])
          exact hvalue.bind fun v => shallow_pure _
        | some dims =>
          dsimp only [elementType]
          cases helem : f.type.element? dims.length with
          | none =>
            refine shallow_stop_bind ?_ _
            rintro ⟨⟩
          | some elem =>
            have hvalue := hpart elem (by rw [Field.part?, hbounds, ← helem])
            dsimp only
            rw [pure_bind]
            exact (hvalue.newArrayOf false elem dims).bind fun array => shallow_pure _
      · exact (shallow_modifyGet fun _ => rfl).bind fun _ => shallow_pure _
    · exact shallow_lift _

theorem shallow_zeroValue (htable : table.Layered) {t : CType}
    (ht : table.Below table.decls.size t) : Shallow table (zeroValue t) :=
  shallow_observe fun m hm => by
    rw [hm]
    exact shallow_zeroWithin htable ht

/-! ## Runs between declarations of structs -/

/-- Whether a state has the same struct table as another one. -/
def SameStructs (m t : Machine) : Prop :=
  t.structs = m.structs

theorem SameStructs.refl (m : Machine) : SameStructs m m := rfl

theorem SameStructs.trans ⦃m t u : Machine⦄ (h : SameStructs m t) (h' : SameStructs t u) :
    SameStructs m u :=
  Eq.trans h' h

/-- Whether a run has the same struct table in all its states. -/
abbrev Steady (x : Run α) : Prop :=
  Traced.Evolves (fun _ => True) SameStructs x

theorem steady_of_still {x : Run α} (hx : ∀ m, x.trace m = [] ∧ x.after m = m) : Steady x :=
  Traced.evolves_of_still SameStructs.refl hx

theorem steady_of_change {x : Run α} {g : Machine → Machine}
    (hx : ∀ m, (x.trace m).map (·.state) = [g m] ∧ x.after m = g m)
    (hg : ∀ m, SameStructs m (g m)) : Steady x :=
  Traced.evolves_of_change SameStructs.refl hx fun m _ => ⟨trivial, hg m⟩

theorem Steady.bind {x : Run α} {f : α → Run β} (hx : Steady x) (hf : ∀ a, Steady (f a)) :
    Steady (x >>= f) :=
  Traced.evolves_bind SameStructs.trans hx hf

theorem Steady.between {x : Run α} {first last : Option Deed} {enter leave : Machine → Machine}
    (hx : Steady x) (henter : ∀ m, SameStructs m (enter m))
    (hleave : ∀ m, SameStructs m (leave m)) : Steady (x.between first last enter leave) :=
  fun m _ => Traced.evolves_between SameStructs.refl SameStructs.trans hx trivial
    ⟨trivial, henter m⟩ fun _ => ⟨trivial, hleave _⟩

theorem Steady.structs_eq {x : Run α} (hx : Steady x) {m t : Machine} (ht : t ∈ x.states m) :
    t.structs = m.structs := by
  have hpairs := (hx m trivial).2
  rw [Traced.states, List.cons_append] at hpairs ht
  rcases List.mem_cons.mp ht with rfl | ht
  · rfl
  · exact (List.pairwise_cons.mp hpairs).1 t ht

theorem steady_get : Steady (get : Run Machine) :=
  steady_of_still fun _ => ⟨rfl, rfl⟩

theorem steady_throw (stop : Stop) : Steady (throw stop : Run α) :=
  steady_of_still fun _ => ⟨rfl, rfl⟩

/-- Nothing but the declaration of a struct changes the struct table. -/
theorem composed_steady : Composed @Steady where
  pure _ := steady_of_still fun _ => ⟨rfl, rfl⟩
  bind := Steady.bind
  stop _ _ := steady_throw _
  anyStop stop _ _ := steady_throw stop
  missingLabel _ _ := steady_throw _
  observe _ hf := steady_get.bind fun m => hf m fun _ => steady_throw _
  observeName _ _ _ hf := steady_get.bind hf
  alloc _ := steady_of_change (fun _ => ⟨rfl, rfl⟩) fun _ => rfl
  put _ _ := steady_of_change (fun _ => ⟨rfl, rfl⟩) fun _ => rfl
  beside f hf _ := steady_of_change (fun _ => ⟨rfl, rfl⟩) fun m => by
    obtain ⟨records, output, events, -, h⟩ := hf m
    rw [h]
    rfl
  own _ := steady_of_change (fun _ => ⟨rfl, rfl⟩) fun _ => rfl
  keepString _ _ := steady_of_change (fun _ => ⟨rfl, rfl⟩) fun _ => rfl
  use _ := steady_of_change (fun _ => ⟨rfl, rfl⟩) SameStructs.refl
  bindName _ _ _ := steady_of_change (fun _ => ⟨rfl, rfl⟩) fun _ => rfl
  introduce _ _ _ := Steady.bind (steady_of_change (fun _ => ⟨rfl, rfl⟩) fun _ => rfl) fun _ =>
    steady_of_change (fun _ => ⟨rfl, rfl⟩) SameStructs.refl
  register f hf _ := steady_of_change (fun _ => ⟨rfl, rfl⟩) fun m => by
    obtain ⟨functions, prototypes, h⟩ := hf m
    change SameStructs m (f m)
    rw [h]
    rfl
  located _ hx := Traced.evolves_mapError _ hx
  inScope hx := hx.between (fun _ => rfl) structs_pop
  inCall _ hx := steady_get.bind fun _ => hx.between (fun _ => rfl) structs_pop

/-! ## Declarations of structs -/

/-- Whether the struct table has a property in all states of a run, and the result and the state at
the end satisfy `Q`. -/
def Throughout (I : StructTable → Prop) (x : Run α) (m : Machine) (Q : α → Machine → Prop) : Prop :=
  (∀ t ∈ x.states m, I t.structs) ∧ ∀ a t, x.exec m = .ok a t → Q a t

variable {I : StructTable → Prop} {m : Machine}

theorem Throughout.bind {x : Run α} {f : α → Run β} {P : α → Machine → Prop}
    {Q : β → Machine → Prop} (hx : Throughout I x m P)
    (hf : ∀ a t, I t.structs → P a t → Throughout I (f a) t Q) : Throughout I (x >>= f) m Q := by
  have hnext : ∀ a t, x.exec m = .ok a t → Throughout I (f a) t Q := fun a t hexec =>
    hf a t (hx.1 t (Traced.after_of_ok hexec ▸ Traced.mem_states_after x m)) (hx.2 a t hexec)
  refine ⟨fun u hu => ?_, fun b u hexec => ?_⟩
  · rcases Traced.mem_states_bind hu with hu | ⟨a, t, hexec, hu⟩
    · exact hx.1 u hu
    · exact (hnext a t hexec).1 u hu
  · obtain ⟨a, t, hxt, hfu, -⟩ := Traced.exec_bind_eq_ok hexec
    exact (hnext a t hxt).2 b u hfu

theorem throughout_pure {a : α} {Q : α → Machine → Prop} (hm : I m.structs) (h : Q a m) :
    Throughout I (pure a) m Q := by
  refine ⟨fun t ht => ?_, fun b t hexec => ?_⟩
  · simp [Traced.states, Traced.after] at ht
    rwa [ht]
  · cases hexec
    exact h

theorem throughout_modifyGet {f : Machine → α × Machine} {Q : α → Machine → Prop}
    (hm : I m.structs) (hf : I (f m).2.structs) (h : Q (f m).1 (f m).2) :
    Throughout I (modifyGet f) m Q := by
  refine ⟨fun t ht => ?_, fun b t hexec => ?_⟩
  · simp only [Traced.states, Traced.after, Traced.exec_modifyGet, Traced.trace_modifyGet,
      List.map_cons, List.map_nil, List.cons_append, List.nil_append, List.mem_cons,
      List.not_mem_nil, or_false, or_self] at ht
    rcases ht with rfl | rfl
    · exact hm
    · exact hf
  · cases hexec
    exact h

theorem Steady.throughout {x : Run α} (hx : Steady x) (hm : I m.structs) :
    Throughout I x m fun a t => x.exec m = .ok a t ∧ t.structs = m.structs := by
  refine ⟨fun t ht => by rwa [hx.structs_eq ht], fun a t hexec => ⟨hexec, ?_⟩⟩
  refine hx.structs_eq ?_
  rw [← Traced.after_of_ok hexec]
  exact Traced.mem_states_after x m

/-- The type that a run finds for a type name, if it is that of a struct, is what the words of the
name stand for by the struct table. -/
theorem typeOf_of_resolve {known : Nat → Option CType} {name : TypeName} {t : CType} {m' : Machine}
    (h : (resolve known name).exec m = .ok t m') (ht : t.struct?.isSome) :
    m.structs.typeOf name.words = .ok t := by
  have hnamed (h : (typeNamed name).exec m = .ok t m') : m.structs.typeOf name.words = .ok t := by
    obtain ⟨_, _, hget, h, -⟩ := Traced.exec_bind_eq_ok h
    cases hget
    cases htype : m.structs.typeOf name.words with
    | error e =>
      rw [htype] at h
      cases h
    | ok type =>
      rw [htype] at h
      cases h
      rfl
  unfold resolve at h
  split at h
  · exact hnamed h
  · split at h
    · rename_i hnone
      cases h
      rw [Option.isNone_iff_eq_none.mp hnone] at ht
      cases ht
    · exact hnamed h

/-- The declared type of a field has a pointer level for each dimension, and below them a struct that
is not the one that is being declared. -/
theorem below_of_declaredType {known : Nat → Option CType} {d : Declarator} {tag : String}
    {decl : Nat} {t : CType} {m' : Machine} (h : (declaredType known d).exec m = .ok t m')
    (hsize : m.structs.decls.size = decl + 1) (htag : m.structs.tags[decl]? = some tag)
    (hother : d.type.structTag? ≠ some tag) :
    ∃ base, t = base.pointers d.dims.length ∧ m.structs.Below decl base := by
  obtain ⟨base, t', hbase, hpure, -⟩ := Traced.exec_bind_eq_ok h
  cases hpure
  refine ⟨base, rfl, fun hstruct => ?_⟩
  obtain ⟨tag', inner, hinner⟩ := CType.exists_struct?_of_isStruct hstruct
  have hwords := typeOf_of_resolve hbase (by rw [hinner]; rfl)
  have hfind : m.structs.find? tag' = some inner := CType.find?_of_ofWords hwords hinner
  refine ⟨tag', inner, hinner, hfind, ?_⟩
  have hlt := StructTable.lt_of_find? hfind
  rw [hsize] at hlt
  refine Nat.lt_of_le_of_ne (Nat.le_of_lt_succ hlt) ?_
  rintro rfl
  -- the number of the new struct stands for its own tag only
  have hsame : tag' = tag := by
    have hfound := StructTable.tag_of_find? hfind
    rw [htag] at hfound
    exact (Option.some.inj hfound).symm
  refine hother ?_
  rw [TypeName.structTag?_eq hwords, if_pos hstruct, CType.tag?, hinner, ← hsame]
  rfl

section

variable {ctx : Context} (hctx : ComposedIn @Steady ctx)

include hctx

/-- A field with a new name keeps the table regular, and the tags as they are. -/
theorem throughout_structField {decl : Nat} {tag : String} {d : Declarator}
    (hm : m.structs.Regular) (hsize : m.structs.decls.size = decl + 1)
    (htag : m.structs.tags[decl]? = some tag) (hnew : d.name.token.text ∉ m.structs.namesAt decl)
    (hother : d.type.structTag? ≠ some tag) :
    Throughout StructTable.Regular (structField ctx decl d) m fun _ t =>
      t.structs.tags = m.structs.tags ∧
        t.structs.namesAt decl ⊆ d.name.token.text :: m.structs.namesAt decl := by
  refine ((hctx.declaredType ctx.known d).throughout hm).bind ?_
  rintro type t hm ⟨htype, ht⟩
  obtain ⟨base, rfl, hbase⟩ := below_of_declaredType htype hsize htag hother
  rw [← ht] at hnew hbase ⊢
  have hadded : (t.structs.addField decl
      ⟨d.name.token.text, base.pointers d.dims.length, none⟩).Regular :=
    hm.addField hbase nofun fun _ => hnew
  have hnames := t.structs.namesAt_addField decl
    ⟨d.name.token.text, base.pointers d.dims.length, none⟩
  refine Throughout.bind (P := fun _ t' => t'.structs = t.structs.addField decl
    ⟨d.name.token.text, base.pointers d.dims.length, none⟩)
    (throughout_modifyGet hm hadded rfl) ?_
  rintro ⟨⟩ t' hm ht'
  have hbase' : t'.structs.Below decl base := hbase.congr fun tag inner hfind => by
    rw [ht', StructTable.find?_addField]
    exact hfind
  have htags : t'.structs.tags = t.structs.tags := by
    rw [ht', StructTable.tags_addField]
  rw [← ht'] at hnames
  rw [← htags]
  split
  · refine ((hctx.arraySizes d none).throughout hm).bind ?_
    rintro sizes u hm ⟨hsizes, hu⟩
    rw [← hu] at hbase' hnames ⊢
    refine throughout_modifyGet hm ?_ ⟨u.structs.tags_addField _ _, ?_⟩
    · refine hm.addField hbase' (fun dims hdims => ?_) nofun
      cases hdims
      exact length_of_arraySizes hsizes
    · intro name hname
      rcases List.mem_cons.mp (u.structs.namesAt_addField decl _ hname) with rfl | hname
      · exact List.mem_cons_self
      · exact hnames hname
  · exact throughout_pure hm ⟨rfl, hnames⟩

/-- By induction on the fields that are left, whose names are all new. -/
theorem throughout_structFields {decl : Nat} {tag : String} {fields : List Declarator}
    (hm : m.structs.Regular) (hsize : m.structs.decls.size = decl + 1)
    (htag : m.structs.tags[decl]? = some tag)
    (hnew : ∀ d ∈ fields, d.name.token.text ∉ m.structs.namesAt decl)
    (hdistinct : (fields.map (·.name.token.text)).Nodup)
    (hother : ∀ d ∈ fields, d.type.structTag? ≠ some tag) :
    Throughout StructTable.Regular (fields.forM (structField ctx decl)) m fun _ t =>
      t.structs.tags = m.structs.tags := by
  induction fields generalizing m with
  | nil => exact throughout_pure hm rfl
  | cons d rest ih =>
    obtain ⟨hd, hrest⟩ := List.forall_mem_cons.mp hnew
    obtain ⟨hfirst, hdistinct⟩ := List.nodup_cons.mp hdistinct
    obtain ⟨hdother, hother⟩ := List.forall_mem_cons.mp hother
    refine (throughout_structField hctx hm hsize htag hd hdother).bind ?_
    rintro _ t hm ⟨htags, hnames⟩
    rw [StructTable.size_decls] at hsize
    rw [← htags] at hsize htag ⊢
    refine ih hm ((StructTable.size_decls _).trans hsize) htag (fun e he hmem => ?_) hdistinct hother
    rcases List.mem_cons.mp (hnames hmem) with hsame | hmem
    · exact hfirst (List.mem_map.mpr ⟨e, he, hsame⟩)
    · exact hrest e he hmem

/-- A struct with a new tag keeps the table regular. -/
theorem throughout_structDecl {name : Leaf} {fields : List Declarator} (hm : m.structs.Regular)
    (hnew : name.token.text ∉ m.structs.tags)
    (hdistinct : (fields.map (·.name.token.text)).Nodup)
    (hother : ∀ d ∈ fields, d.type.structTag? ≠ some name.token.text) :
    Throughout StructTable.Regular (structDecl ctx name fields) m fun _ t =>
      t.structs.tags = m.structs.tags ++ [name.token.text] := by
  have htags := m.structs.tags_declare name.token.text
  refine Throughout.bind (P := fun decl t => decl = m.structs.decls.size ∧
      t.structs = (m.structs.declare name.token.text).2) (throughout_modifyGet hm
    (hm.declare (StructTable.find?_eq_none_iff.mpr hnew)) ⟨rfl, rfl⟩) ?_
  rintro _ t hm ⟨rfl, ht⟩
  rw [← ht] at htags
  have hsize : t.structs.decls.size = m.structs.decls.size + 1 := by
    rw [ht]
    exact Array.size_push _
  have htag : t.structs.tags[m.structs.decls.size]? = some name.token.text := by
    rw [htags, StructTable.size_decls, List.getElem?_concat_length]
  rw [← htags]
  refine throughout_structFields hctx hm hsize htag (fun d _ => ?_) hdistinct hother
  have hnames : t.structs.namesAt m.structs.decls.size = [] := by
    rw [ht]
    exact m.structs.namesAt_declare _
  rw [hnames]
  exact List.not_mem_nil

end

end Run

/-! ## Structs in the analysis -/

namespace Check

theorem tags_of_structFields {tag : String} {decl : Nat} {fields : List Declarator}
    {a t : Analysis} (h : (fields.forM (structField tag decl)).exec a = .ok () t) :
    t.structs.tags = a.structs.tags := by
  induction fields generalizing a with
  | nil =>
    cases h
    rfl
  | cons d rest ih =>
    obtain ⟨_, b, hfield, hrest, -⟩ := Traced.exec_bind_eq_ok h
    obtain ⟨type, -, -, -, -, -, hb⟩ := structField_eq_ok hfield
    rw [ih hrest, hb, StructTable.tags_addField]

/-- The analysis accepts the pieces of a program only if no two of them declare the same struct. -/
theorem nodup_of_items {items : List Item} {a t : Analysis}
    (h : (items.forM item).exec a = .ok () t) (ha : a.structs.tags.Nodup) :
    (a.structs.tags ++ items.filterMap Item.structTag?).Nodup := by
  induction items generalizing a with
  | nil => simpa using ha
  | cons i rest ih =>
    obtain ⟨_, b, hitem, hrest, -⟩ := Traced.exec_bind_eq_ok h
    by_cases hi : ∃ name fields, i = .struct name fields
    · obtain ⟨name, fields, rfl⟩ := hi
      obtain ⟨hnew, hfields⟩ := structDecl_eq_ok hitem
      have hb : b.structs.tags = a.structs.tags ++ [name.token.text] :=
        (tags_of_structFields hfields).trans (a.structs.tags_declare _)
      rw [StructTable.find?_eq_none_iff] at hnew
      have htags : b.structs.tags.Nodup := by
        rw [hb]
        exact ha.append (List.nodup_singleton _) (List.disjoint_singleton.mpr hnew)
      have hnodup := ih hrest htags
      rwa [hb, List.append_assoc] at hnodup
    · have hsame : b.structs = a.structs := by
        rw [← Traced.after_of_ok hitem]
        exact tabled_item (fun name fields heq => hi ⟨name, fields, heq⟩) a
      have hnone : i.structTag? = none := by
        cases i with
        | struct name fields => exact absurd ⟨name, fields, rfl⟩ hi
        | _ => rfl
      rw [List.filterMap_cons, hnone]
      exact hsame ▸ ih hrest (hsame ▸ ha)

/-- The analysis accepts no field that has the type of its own struct. -/
theorem structTag?_ne_of_structField {tag : String} {decl : Nat} {d : Declarator}
    {a t : Analysis} (h : (structField tag decl d).exec a = .ok () t) (hdims : d.dims = []) :
    d.type.structTag? ≠ some tag := by
  obtain ⟨type, b, htype, -, hself, -, -⟩ := structField_eq_ok h
  obtain ⟨base, hwords, rfl⟩ := exists_of_declaredType htype
  rw [hdims] at hself
  rw [TypeName.structTag?_eq hwords]
  split
  · rename_i hstruct
    exact fun htag => hself ⟨hstruct, htag⟩
  · exact nofun

end Check

/-! ## Programs -/

namespace Program

variable {p : Program}

/-- The tags of the structs that a program declares. -/
def structTags (p : Program) : List String :=
  p.items.filterMap Item.structTag?

theorem nodup_structTags (haccepted : p.Accepted) : p.structTags.Nodup := by
  unfold Accepted check at haccepted
  cases hexec : (Check.program p).exec .start with
  | error e t =>
    rw [hexec] at haccepted
    cases haccepted
  | ok _ t =>
    obtain ⟨_, a, henter, hexec, -⟩ := Traced.exec_bind_eq_ok hexec
    obtain ⟨_, b, hitems, -⟩ := Traced.exec_bind_eq_ok hexec
    cases henter
    exact Check.nodup_of_items hitems List.nodup_nil

/-- In an accepted program in which no struct has an array of itself, no field is made of the struct
that it belongs to. -/
theorem structTag?_ne (haccepted : p.Accepted) (hnests : ∀ i ∈ p.items, ¬i.NestsItself)
    {name : Leaf} {fields : List Declarator} (hstruct : .struct name fields ∈ p.items)
    {d : Declarator} (hd : d ∈ fields) : d.type.structTag? ≠ some name.token.text := by
  by_cases hdims : d.dims = []
  · obtain ⟨a, b, hitem⟩ := Check.exists_exec_item haccepted _ hstruct
    obtain ⟨-, hfields⟩ := Check.structDecl_eq_ok hitem
    obtain ⟨s, t, hfield⟩ := Traced.exists_exec_of_forM hfields d hd
    exact Check.structTag?_ne_of_structField hfield hdims
  · exact fun htag => hnests _ hstruct ⟨d, hd, hdims, htag⟩

/-- By induction on the pieces that are left, whose structs have new tags. -/
theorem throughout_items (haccepted : p.Accepted) (hnests : ∀ i ∈ p.items, ¬i.NestsItself)
    (known : Nat → Option CType) (fuel : Nat) {items : List Item} (hsub : items ⊆ p.items)
    {m : Machine} (hm : m.structs.Regular)
    (hnodup : (m.structs.tags ++ items.filterMap Item.structTag?).Nodup) :
    Run.Throughout StructTable.Regular (items.forM (Run.item ⟨known, Run.call known fuel⟩)) m
      fun _ _ => True := by
  have hctx := Run.composed_steady.context known fuel
  induction items generalizing m with
  | nil => exact Run.throughout_pure hm trivial
  | cons i rest ih =>
    obtain ⟨hi, hrest⟩ := List.cons_subset.mp hsub
    by_cases hstruct : ∃ name fields, i = .struct name fields
    · obtain ⟨name, fields, rfl⟩ := hstruct
      have hnew : name.token.text ∉ m.structs.tags := by
        intro hmem
        exact (List.nodup_append.mp hnodup).2.2 _ hmem _ List.mem_cons_self rfl
      refine (Run.throughout_structDecl hctx hm hnew
        (fieldsDistinct_of_check haccepted name fields hi)
        fun d hd => structTag?_ne haccepted hnests hi hd).bind fun _ t ht htags => ?_
      refine ih hrest ht ?_
      rw [htags, List.append_assoc]
      exact hnodup
    · have hnone : i.structTag? = none := by
        cases i with
        | struct name fields => exact absurd ⟨name, fields, rfl⟩ hstruct
        | _ => rfl
      have hsteady : Run.Steady (Run.item ⟨known, Run.call known fuel⟩ i) :=
        hctx.item Run.composed_steady.defines i
          (fun name fields heq => absurd ⟨name, fields, heq⟩ hstruct) fun _ _ _ _ _ _ => trivial
      refine (hsteady.throughout hm).bind fun _ t ht ⟨_, hsame⟩ => ih hrest ht ?_
      rw [List.filterMap_cons, hnone] at hnodup
      rwa [hsame]

/-- In every state of every run of such a program, the struct table is regular. -/
theorem regular_of_visits (haccepted : p.Accepted) (hnests : ∀ i ∈ p.items, ¬i.NestsItself)
    {known : Nat → Option CType} {m : Machine} (hm : p.Visits known m) : m.structs.Regular := by
  obtain ⟨fuel, hm⟩ := hm
  have hitems := throughout_items haccepted hnests known fuel (List.Subset.refl _)
    (m := .start) StructTable.regular_empty (nodup_structTags haccepted)
  have hmain := (Run.composed_steady.context known fuel).main p.pos?
  refine (hitems.bind (Q := fun _ _ => True) fun _ t ht _ => ?_).1 m hm
  exact ⟨(hmain.throughout ht).1, fun _ _ _ => trivial⟩

/-- In an accepted program in which no struct has an array of itself, the structs that each struct
contains, however deep, are others. Every struct type that the program names has a size at every
moment of a run, and a value of it is made without nesting structs too deep. -/
theorem structs_finite (haccepted : p.Accepted) (hnests : ∀ i ∈ p.items, ¬i.NestsItself)
    {known : Nat → Option CType} {m : Machine} (hm : p.Visits known m) :
    (∀ decl, ¬Relation.TransGen m.structs.Contains decl decl) ∧
      ∀ words t, m.structs.typeOf words = .ok t →
        (∃ n, m.structs.sizeOf t = .ok n) ∧
          ∀ m', (Run.zeroValue t).exec m ≠ .error .tooDeep m' := by
  obtain ⟨hfits, hlayered⟩ := regular_of_visits haccepted hnests hm
  refine ⟨hlayered.acyclic, fun words t hwords => ?_⟩
  have hbelow : m.structs.Below m.structs.decls.size t :=
    StructTable.below_of_find? fun tag decl ht => CType.find?_of_ofWords hwords ht
  refine ⟨hlayered.exists_sizeOf hfits hbelow, fun m' hstop => ?_⟩
  have hshallow := Run.shallow_zeroValue hlayered hbelow m rfl
  rw [hstop] at hshallow
  exact hshallow rfl

/-- The type of a struct in the first line of a text. -/
def sampleStruct (tag : String) (id column slot : Nat) : TypeName :=
  ⟨sampleToken .typeKeyword "struct" 1 column, [sampleToken .identifier tag id (column + 7)], slot⟩

/-- The program `struct A {int n;}; struct B {struct A a[2]; struct B *b;}; int main(){struct B b;
return sizeof(struct B);}`. -/
def pairing : Program where
  items := [
    .struct (sampleName "A" 2 8 0) [⟨sampleInt 11 1, sampleName "n" 5 15 2, [], none⟩],
    .struct (sampleName "B" 8 27 3) [
      ⟨sampleStruct "A" 2 30 4, sampleName "a" 9 39 5, [.sized (sampleNumber "2" 11 41 6)], none⟩,
      ⟨⟨sampleToken .typeKeyword "struct" 1 45, [sampleToken .identifier "B" 8 52,
        sampleToken .punctuator "*" 13 54], 7⟩, sampleName "b" 14 55 8, [], none⟩],
    .function (sampleInt 60 9) (sampleName "main" 15 64 10) [] [
      .line [.declare ⟨⟨sampleStruct "B" 8 71 11, sampleName "b" 14 80 12, [], none⟩, []⟩],
      .line [.return (some (.sizeOf (sampleStruct "B" 8 97 13)))]]]

/-- The struct `B` has two values of the struct `A` in it and a pointer to itself, and takes up as
many bytes as they do. -/
theorem structs_finite_pairing :
    pairing.Accepted ∧ (∀ i ∈ pairing.items, ¬i.NestsItself) ∧
      ∃ m t, pairing.Visits (fun _ => none) m ∧ m.structs.typeOf ["struct", "B"] = .ok t ∧
        (∀ decl, ¬Relation.TransGen m.structs.Contains decl decl) ∧
        m.structs.sizeOf t = .ok 16 ∧ ∀ m', (Run.zeroValue t).exec m ≠ .error .tooDeep m' := by
  have haccepted : pairing.Accepted := by
    unfold Accepted
    cbv
  have hnests : ∀ i ∈ pairing.items, ¬i.NestsItself := by decide +kernel
  let m := (Run.program (fun _ => none) 100 pairing).after .start
  have hm : pairing.Visits (fun _ => none) m := ⟨100, Traced.mem_states_after _ _⟩
  have htype : m.structs.typeOf ["struct", "B"] = .ok ⟨false, .struct "B" 1, []⟩ := by
    decide +kernel
  have hsize : m.structs.sizeOf ⟨false, .struct "B" 1, []⟩ = .ok 16 := by decide +kernel
  obtain ⟨hacyclic, hfinite⟩ := structs_finite haccepted hnests hm
  exact ⟨haccepted, hnests, m, _, hm, htype, hacyclic, hsize, (hfinite _ _ htype).2⟩

/-! ## A struct that has no end -/

/-- The program `struct S { struct S a[2]; }; int main(){struct S s; return 0;}`. -/
def nesting : Program where
  items := [
    .struct (sampleName "S" 2 8 0) [
      ⟨sampleStruct "S" 2 12 1, sampleName "a" 4 21 2, [.sized (sampleNumber "2" 6 23 3)], none⟩],
    .function (sampleInt 30 4) (sampleName "main" 11 34 5) [] [
      .line [.declare ⟨⟨sampleStruct "S" 2 41 6, sampleName "s" 14 50 7, [], none⟩, []⟩],
      .line [.return (some (sampleNumber "0" 16 60 8))]]]

/-- A struct with an array of itself is accepted, and the run stops where it makes a value of it. -/
theorem not_structs_finite :
    nesting.Accepted ∧ (nesting.run (fun _ => none) 100).1 = .error .tooDeep ∧
    ¬∀ p : Program, p.Accepted → ∀ known m, p.Visits known m → ∀ words t,
      m.structs.typeOf words = .ok t → ∀ m', (Run.zeroValue t).exec m ≠ .error .tooDeep m' := by
  have haccepted : nesting.Accepted := by
    unfold Accepted
    cbv
  refine ⟨haccepted, by decide +kernel, fun hall => ?_⟩
  let m := (Run.program (fun _ => none) 100 nesting).after .start
  have hm : nesting.Visits (fun _ => none) m := ⟨100, Traced.mem_states_after _ _⟩
  have htype : m.structs.typeOf ["struct", "S"] = .ok ⟨false, .struct "S" 0, []⟩ := by
    decide +kernel
  have hstop : (Run.zeroValue ⟨false, .struct "S" 0, []⟩).error? m = some .tooDeep := by
    decide +kernel
  obtain ⟨m', hexec⟩ := Traced.exists_exec_of_error? hstop
  exact hall nesting haccepted _ m hm _ _ htype m' hexec

end Program

end MiniC
