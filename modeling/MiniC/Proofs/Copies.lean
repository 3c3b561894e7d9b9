import MiniC.Proofs.Copies.Sound
import MiniC.Proofs.Types

set_option autoImplicit false

/-! # Copies of struct values

A copy of a struct value has the same content as the struct value, and everything that belongs to it
is new: no buffer and no struct value belongs to both, or twice to the copy. So what is stored in
one of the two later on is not seen through the other. -/

namespace MiniC

/-- Whether a type says something about the values of a location: it is neither `auto` nor
`void`. -/
def CType.Definite (t : CType) : Prop := ¬t.isAuto ∧ ¬t.isVoid

instance : DecidablePred CType.Definite :=
  fun t => inferInstanceAs (Decidable (¬t.isAuto ∧ ¬t.isVoid))

theorem CType.definite_of_ofWords_struct {find? : String → Option Nat} {tag : String} {t : CType}
    (h : ofWords find? ["struct", tag] = .ok t) : t.Definite := by
  obtain ⟨decl, rfl⟩ := eq_of_ofWords_struct h
  constructor <;> simp [isAuto, isVoid]

namespace Run

variable {m m₁ m₂ m₃ : Machine}

/-! ## What a copy is -/

/-- Whether `copy` was made between the states `m₁` and `m₂`, with the content that `part` has in
the state `m`. Both are values with their ranks as arrays. -/
def Copied (m m₁ m₂ : Machine) (part copy : Nat × Value) : Prop :=
  ∃ s t, m.Unfolds part.1 part.2 s ∧ m₂.Unfolds copy.1 copy.2 t ∧ t.content = s.content ∧
    t.locations.Nodup ∧ ∀ l ∈ t.locations, ¬l.Made m₁

/-- Whether `copies` were made between the states `m₁` and `m₂`, with the contents that `parts` have
in the state `m`. -/
def CopiedAll (m m₁ m₂ : Machine) (parts copies : List (Nat × Value)) : Prop :=
  ∃ ss ts, m.UnfoldsAll parts ss ∧ m₂.UnfoldsAll copies ts ∧
    Shape.content.contentAll ts = Shape.content.contentAll ss ∧
    (Shape.locations.locationsAll ts).Nodup ∧ ∀ l ∈ Shape.locations.locationsAll ts, ¬l.Made m₁

theorem Copied.cons {part copy : Nat × Value} {parts copies : List (Nat × Value)}
    (hfirst : Copied m m₁ m₂ part copy) (hadds : m₁.Adds m₂)
    (hrest : CopiedAll m m₂ m₃ parts copies) (hadds' : m₂.Adds m₃) :
    CopiedAll m m₁ m₃ (part :: parts) (copy :: copies) := by
  obtain ⟨s, t, hs, ht, hcontent, hnodup, hnew⟩ := hfirst
  obtain ⟨ss, ts, hss, hts, hcontents, hnodups, hnews⟩ := hrest
  refine ⟨s :: ss, t :: ts, .cons hs hss, .cons (ht.kept hadds'.toSpares) hts, ?_, ?_,
    fun l hl => ?_⟩
  · rw [Shape.content.contentAll, Shape.content.contentAll, hcontent, hcontents]
  · refine List.nodup_append.mpr ⟨hnodup, hnodups, fun l hl l' hl' heq => ?_⟩
    subst heq
    exact hnews l hl' (ht.made l hl)
  · rcases List.mem_append.mp hl with hl | hl
    · exact hnew l hl
    · exact fun hmade => hnews l hl (hadds.made l hmade)

/-! ## Copying several values -/

/-- Copies that are made one after another have nothing in common. -/
theorem copiedAll_mapM {α : Type} {f : α → Run α} (part : α → Nat × Value) {l : List α}
    (hf : ∀ a ∈ l, ∀ m₁ b m₂, m.Spares m₁ → (f a).exec m₁ = .ok b m₂ →
      m₁.Adds m₂ ∧ Copied m m₁ m₂ (part a) (part b))
    (hspares : m.Spares m₁) {copies : List α} (h : (l.mapM f).exec m₁ = .ok copies m₂) :
    m₁.Adds m₂ ∧ CopiedAll m m₁ m₂ (l.map part) (copies.map part) := by
  induction l generalizing m₁ copies with
  | nil =>
    rw [List.mapM_nil] at h
    cases h
    exact ⟨.refl _, [], [], .nil, .nil, rfl, List.nodup_nil, List.forall_mem_nil _⟩
  | cons a l ih =>
    rw [List.mapM_cons] at h
    obtain ⟨b, mid, hfirst, hmore, -⟩ := Traced.exec_bind_eq_ok h
    obtain ⟨bs, last, hrest, hpure, -⟩ := Traced.exec_bind_eq_ok hmore
    cases hpure
    obtain ⟨hadds, hcopied⟩ := hf a List.mem_cons_self m₁ b mid hspares hfirst
    obtain ⟨hadds', hcopies⟩ :=
      ih (fun c hc => hf c (List.mem_cons_of_mem a hc)) (hspares.trans hadds.toSpares) hrest
    exact ⟨hadds.trans hadds', hcopied.cons hadds hcopies hadds'⟩

/-- What is made of fields one after another has the names of the fields. -/
theorem names_mapM {f : String × Value → Run Value} {l copies : List (String × Value)}
    (h : (l.mapM fun field => do return (field.1, ← f field)).exec m = .ok copies m₁) :
    copies.map Prod.fst = l.map Prod.fst := by
  induction l generalizing m copies with
  | nil =>
    rw [List.mapM_nil] at h
    cases h
    rfl
  | cons field l ih =>
    rw [List.mapM_cons] at h
    obtain ⟨b, mid, hfirst, hmore, -⟩ := Traced.exec_bind_eq_ok h
    obtain ⟨bs, last, hrest, hpure, -⟩ := Traced.exec_bind_eq_ok hmore
    obtain ⟨w, _, -, hpair, -⟩ := Traced.exec_bind_eq_ok hfirst
    cases hpure
    cases hpair
    rw [List.map_cons, List.map_cons, ih hrest]

/-! ## Copying a value -/

theorem copyWithin_of_isPlain {rank : Nat} {v : Value} (h : v.IsPlain rank) (depth : Nat) :
    copyWithin depth rank v = pure v := by
  cases v with
  | record id => exact h.elim
  | pointer p =>
    obtain rfl : rank = 0 := h
    cases depth <;> rfl
  | _ => cases depth <;> cases rank <;> rfl

theorem copied_of_isPlain {rank : Nat} {v : Value} (h : v.IsPlain rank) (m m₁ : Machine) :
    m₁.Adds m₁ ∧ Copied m m₁ m₁ (rank, v) (rank, v) :=
  ⟨.refl _, .plain v, .plain v, .plain h, .plain h, rfl, List.nodup_nil, List.forall_mem_nil _⟩

/-- A struct value that is made of copies of fields is a copy. -/
theorem copied_addRecord {rank id : Nat} {record : Record}
    (hrecord : m.records.all[id]? = some record)
    {fields : List (String × Value)} (hnames : fields.map Prod.fst = record.fields.map Prod.fst)
    (hadds : m₁.Adds m₂) (hstructs : m₂.structs = m.structs)
    (hparts : CopiedAll m m₁ m₂ (m.structs.parts record) (m.structs.parts ⟨record.tag, fields⟩)) :
    m₁.Adds (m₂.addRecord ⟨record.tag, fields⟩).2 ∧
      Copied m m₁ (m₂.addRecord ⟨record.tag, fields⟩).2 (rank, .record id)
        (rank, .record (m₂.addRecord ⟨record.tag, fields⟩).1) := by
  have hnewest := m₂.adds_addRecord ⟨record.tag, fields⟩
  have hid : ¬(Location.record m₂.records.all.size).Made m₂ := Nat.lt_irrefl _
  have hmade : (m₂.addRecord ⟨record.tag, fields⟩).2.records.all[m₂.records.all.size]? =
      some ⟨record.tag, fields⟩ := Array.getElem?_push_size
  obtain ⟨ss, ts, hss, hts, hcontent, hnodup, hnew⟩ := hparts
  refine ⟨hadds.trans hnewest, .struct id record.tag (record.fields.map Prod.fst) ss,
    .struct m₂.records.all.size record.tag (fields.map Prod.fst) ts, .struct hrecord hss,
    .struct hmade ?_, ?_, ?_, fun l hl => ?_⟩
  · have hts' := hts.kept hnewest.toSpares
    rwa [← hstructs] at hts'
  · rw [Shape.content, Shape.content, hcontent, hnames]
  · exact List.nodup_cons.mpr ⟨fun hmem => hid (hts.made _ hmem), hnodup⟩
  · rcases List.mem_cons.mp hl with rfl | hl
    · exact fun hmade => hid (hadds.made _ hmade)
    · exact hnew l hl

/-- A buffer that is made of copies of elements belongs to a copy. -/
theorem copied_alloc {rank : Nat} {p : Pointer} {values copies : Array Value}
    (hbuffer : m.arena.buffer? p.buffer = some values) (hadds : m₁.Adds m₂)
    (hparts : CopiedAll m m₁ m₂ (values.toList.map fun v => (rank, v))
      (copies.toList.map fun v => (rank, v))) :
    m₁.Adds (m₂.alloc copies).2 ∧
      Copied m m₁ (m₂.alloc copies).2 (rank + 1, .pointer p)
        (rank + 1, .pointer { p with buffer := (m₂.alloc copies).1 }) := by
  have hnewest := m₂.adds_alloc copies
  have hhandle : ¬(Location.buffer m₂.arena.next).Made m₂ := Nat.lt_irrefl _
  have hcopies : (m₂.alloc copies).2.arena.buffer? m₂.arena.next = some copies := by
    show (m₂.arena.alloc copies).2.buffer? m₂.arena.next = _
    rw [Arena.buffer?_alloc, if_pos rfl]
  obtain ⟨ss, ts, hss, hts, hcontent, hnodup, hnew⟩ := hparts
  refine ⟨hadds.trans hnewest, .array p.buffer p.index p.target ss,
    .array m₂.arena.next p.index p.target ts, .array hbuffer hss,
    .array hcopies (hts.kept hnewest.toSpares), ?_, ?_, fun l hl => ?_⟩
  · rw [Shape.content, Shape.content, hcontent]
  · exact List.nodup_cons.mpr ⟨fun hmem => hhandle (hts.made _ hmem), hnodup⟩
  · rcases List.mem_cons.mp hl with rfl | hl
    · exact fun hmade => hhandle (hadds.made _ hmade)
    · exact hnew l hl

/-- What a copy of a struct value does: it copies the fields, and makes a struct value of the
copies. -/
theorem exec_copyWithin_record {depth rank id : Nat} {copy : Value}
    (h : (copyWithin (depth + 1) rank (.record id)).exec m₁ = .ok copy m₃) :
    ∃ fields m₂, ((m₁.records.get id).fields.mapM fun field : String × Value => do
        return (field.1, ← copyWithin depth
          (m₁.structs.rankOf (m₁.records.get id).tag field.1) field.2)).exec m₁
        = .ok fields m₂ ∧
      copy = .record (m₂.addRecord ⟨(m₁.records.get id).tag, fields⟩).1 ∧
      m₃ = (m₂.addRecord ⟨(m₁.records.get id).tag, fields⟩).2 := by
  obtain ⟨_, _, hget, hmore, -⟩ := Traced.exec_bind_eq_ok h
  cases hget
  obtain ⟨fields, m₂, hfields, hnew, -⟩ := Traced.exec_bind_eq_ok hmore
  cases hnew
  exact ⟨fields, m₂, hfields, rfl, rfl⟩

/-- What a copy of an array does: it copies the elements, and makes a buffer of the copies. -/
theorem exec_copyWithin_pointer {depth rank : Nat} {p : Pointer} {copy : Value}
    (h : (copyWithin (depth + 1) (rank + 1) (.pointer p)).exec m₁ = .ok copy m₃) :
    ∃ values copies m₂, m₁.arena.buffer? p.buffer = some values ∧
      (values.toList.mapM fun v => copyWithin depth rank v).exec m₁ = .ok copies m₂ ∧
      copy = .pointer { p with buffer := (m₂.alloc copies.toArray).1 } ∧
      m₃ = (m₂.alloc copies.toArray).2 := by
  obtain ⟨_, _, hget, hcontents, -⟩ := Traced.exec_bind_eq_ok h
  cases hget
  obtain ⟨values, m₁', hvalues, hmore, -⟩ := Traced.exec_bind_eq_ok hcontents
  obtain ⟨copies, m₂, hcopies, hnew, -⟩ := Traced.exec_bind_eq_ok hmore
  cases hbuffer : m₁.arena.buffer? p.buffer with
  | none =>
    rw [Arena.contents, hbuffer] at hvalues
    cases hvalues
  | some known =>
    rw [Arena.contents, hbuffer] at hvalues
    cases hvalues
    rw [Array.mapM_eq_mapM_toList, ← bind_pure_comp] at hcopies
    obtain ⟨list, m₂', hlist, harray, -⟩ := Traced.exec_bind_eq_ok hcopies
    cases harray
    cases hnew
    exact ⟨values, list, m₂, rfl, hlist, rfl, rfl⟩

/-- Everything that is made for a copy is made after the state in which copying begins. -/
theorem copied_copyWithin (hm : m.Sound) {depth rank : Nat} {v copy : Value} (hv : m.Knows v)
    (hspares : m.Spares m₁) (h : (copyWithin depth rank v).exec m₁ = .ok copy m₂) :
    m₁.Adds m₂ ∧ Copied m m₁ m₂ (rank, v) (rank, copy) := by
  induction depth generalizing rank v m₁ copy m₂ with
  | zero =>
    -- without depth, nothing that has parts is copied
    have hplain : v.IsPlain rank := by
      cases v with
      | record id => cases h
      | pointer p =>
        cases rank with
        | zero => rfl
        | succ rank => cases h
      | _ => trivial
    rw [copyWithin_of_isPlain hplain] at h
    cases h
    exact copied_of_isPlain hplain m m₁
  | succ depth ih =>
    by_cases hplain : v.IsPlain rank
    · rw [copyWithin_of_isPlain hplain] at h
      cases h
      exact copied_of_isPlain hplain m m₁
    cases v with
    | record id =>
      obtain ⟨record, hrecord⟩ : ∃ record, m.records.all[id]? = some record :=
        ⟨_, Array.getElem?_eq_getElem hv⟩
      have hget : m₁.records.get id = record := by
        have hsame : m₁.records.all[id]? = m.records.all[id]? := hspares.same (.record id) hv
        rw [Records.get, hsame, hrecord]
        rfl
      obtain ⟨fields, mid, hfields, rfl, rfl⟩ := exec_copyWithin_record h
      rw [hget, hspares.structs] at hfields
      rw [hget]
      obtain ⟨hadds, hparts⟩ := copiedAll_mapM
        (fun field => (m.structs.rankOf record.tag field.1, field.2))
        (fun field hfield s pair t hs hpair => by
          obtain ⟨w, t', hw, hpure, -⟩ := Traced.exec_bind_eq_ok hpair
          cases hpure
          have hheld : m.Holds field.2 :=
            .inr ⟨record, Array.mem_of_getElem? hrecord, field.1, hfield⟩
          exact ih (hm _ hheld) hs hw) hspares hfields
      exact copied_addRecord hrecord (names_mapM hfields) hadds
        (hadds.structs.trans hspares.structs) hparts
    | pointer p =>
      cases rank with
      | zero => exact absurd rfl hplain
      | succ rank =>
        obtain ⟨values, copies, mid, hbuffer, hcopies, rfl, rfl⟩ := exec_copyWithin_pointer h
        have hsame : m₁.arena.buffer? p.buffer = m.arena.buffer? p.buffer :=
          hspares.same (.buffer p.buffer) hv
        rw [hsame] at hbuffer
        obtain ⟨hadds, hparts⟩ := copiedAll_mapM (fun v => (rank, v))
          (fun v hmem s w t hs hw => by
            have hheld : m.Holds v := .inl ⟨_, values, hbuffer, Array.mem_toList_iff.mp hmem⟩
            exact ih (hm v hheld) hs hw) hspares hcopies
        exact copied_alloc hbuffer hadds hparts
    | _ => exact absurd trivial hplain

/-! ## Copies that are apart -/

/-- Whether `copy`, in the state `m'`, is a copy of a value `v` that is still what it was in the
state `m`: it has the same content, and all that belongs to it was made since, and once each. -/
structure CopiedApart (m m' : Machine) (v copy : Value) (s t : Shape) : Prop where
  before : m.Unfolds 0 v s
  original : m'.Unfolds 0 v s
  unfolds : m'.Unfolds 0 copy t
  content : t.content = s.content
  nodup : t.locations.Nodup
  new : ∀ l ∈ t.locations, ¬l.Made m

/-- Whether a value keeps its shape `s`, whatever is stored to the places that belong to one of the
shape `t`. -/
def Unseen (m : Machine) (v : Value) (s t : Shape) : Prop :=
  ∀ stores m', (∀ store ∈ stores, store.1.location ∈ t.locations) →
    (writeAll stores).exec m = .ok () m' → m'.Unfolds 0 v s

/-- Whether `copy` is a copy of a value, and nothing that is stored to one of the two later on is
seen through the other. -/
def IndependentCopy (m m' : Machine) (v copy : Value) : Prop :=
  ∃ s t, CopiedApart m m' v copy s t ∧ Unseen m' v s t ∧ Unseen m' copy t s

namespace CopiedApart

variable {m' m'' : Machine} {v copy : Value} {s t : Shape}

theorem disjoint (h : CopiedApart m m' v copy s t) {l : Location} (hs : l ∈ s.locations) :
    l ∉ t.locations :=
  fun ht => h.new l ht (h.before.made l hs)

theorem independentCopy (h : CopiedApart m m' v copy s t) : IndependentCopy m m' v copy := by
  refine ⟨s, t, h, fun stores m'' hplaces hexec => ?_, fun stores m'' hplaces hexec => ?_⟩
  · exact unfolds_writeAll hexec h.original fun store hstore hs =>
      h.disjoint hs (hplaces store hstore)
  · exact unfolds_writeAll hexec h.unfolds fun store hstore =>
      h.disjoint (hplaces store hstore)

/-- A copy stays one while nothing that belongs to it or to the original is changed. -/
theorem of_same (h : CopiedApart m m' v copy s t) (hstructs : m''.structs = m'.structs)
    (hs : ∀ l ∈ s.locations, l.Same m' m'') (ht : ∀ l ∈ t.locations, l.Same m' m'') :
    CopiedApart m m'' v copy s t :=
  { h with
    original := h.original.of_same hstructs hs
    unfolds := h.unfolds.of_same hstructs ht }

theorem kept (h : CopiedApart m m' v copy s t) (hspares : m'.Spares m'') :
    CopiedApart m m'' v copy s t :=
  h.of_same hspares.structs (fun l hl => hspares.same l (h.original.made l hl))
    fun l hl => hspares.same l (h.unfolds.made l hl)

end CopiedApart

/-! ## Copies that steps of a run make -/

section

variable {id : Nat} {v w : Value} {pos : Option Position}

/-- A copy of a struct value of an earlier state. -/
theorem copiedApart_copy (hm : m.Sound) (hid : m.Knows (.record id)) (hspares : m.Spares m₁)
    (h : (copy (.record id)).exec m₁ = .ok w m₂) :
    m₁.Adds m₂ ∧ ∃ s t, CopiedApart m m₂ (.record id) w s t := by
  obtain ⟨_, _, hget, hcopy, -⟩ := Traced.exec_bind_eq_ok h
  cases hget
  obtain ⟨hadds, s, t, hs, ht, hcontent, hnodup, hnew⟩ := copied_copyWithin hm hid hspares hcopy
  exact ⟨hadds, s, t, hs, hs.kept (hspares.trans hadds.toSpares), ht, hcontent, hnodup,
    fun l hl hmade => hnew l hl (hspares.made l hmade)⟩

/-- A struct value is no value for a location of a type that is no struct, unless the type says
nothing about its values. -/
theorem convertScalar_record_ne_ok {t : CType} (ht : t.Definite) (id : Nat) (w : Value) :
    (Value.record id).convertScalar t ≠ .ok w := by
  unfold Value.convertScalar
  rw [if_neg (by simp [ht.1, ht.2])]
  intro h
  split at h
  · cases h
  · split at h <;> cases h

/-- A location whose type says something about its values gets a copy of a struct value. -/
theorem copiedApart_convert (hm : m.Sound) (hid : m.Knows (.record id)) (hspares : m.Spares m₁)
    {t : CType} (ht : t.Definite) (h : (convert t (.record id) pos).exec m₁ = .ok w m₂) :
    m₁.Adds m₂ ∧ ∃ s t, CopiedApart m m₂ (.record id) w s t := by
  unfold convert at h
  split at h
  · obtain ⟨_, _, hget, hconvert, -⟩ := Traced.exec_bind_eq_ok h
    cases hget
    split at hconvert
    · exact copiedApart_copy hm hid hspares hconvert
    · cases hconvert
  · split at h
    · cases h
    cases hscalar : (Value.record id).convertScalar t with
    | error cause =>
      rw [hscalar] at h
      cases h
    | ok u => exact absurd hscalar (convertScalar_record_ne_ok ht id u)

/-- A conversion makes buffers and struct values at most. -/
theorem adds_convert (hm : m.Sound) (hv : m.Knows v) (hspares : m.Spares m₁) {t : CType}
    (h : (convert t v pos).exec m₁ = .ok w m₂) : m₁.Adds m₂ := by
  unfold convert at h
  split at h
  · cases v with
    | record id =>
      obtain ⟨_, _, hget, hconvert, -⟩ := Traced.exec_bind_eq_ok h
      cases hget
      split at hconvert
      · exact (copiedApart_copy hm hv hspares hconvert).1
      · cases hconvert
    | _ => cases h
  · split at h
    · cases h
    · rw [(still_liftAt pos _).eq_of_ok h]
      exact .refl m₁

/-- A place gets a copy of a struct value. -/
theorem copiedApart_fit (hm : m.Sound) (hid : m.Knows (.record id)) {place : Place}
    (ht : ∀ t ∈ place.type?, t.Definite) (h : (place.fit (.record id) pos).exec m = .ok w m₁) :
    m.Adds m₁ ∧ ∃ s t, CopiedApart m m₁ (.record id) w s t := by
  unfold Place.fit at h
  cases htype : place.type? with
  | none =>
    rw [htype] at h
    exact copiedApart_copy hm hid (.refl m) h
  | some t =>
    rw [htype] at h
    exact copiedApart_convert hm hid (.refl m) (ht t htype) h

/-- After an assignment, the place that is assigned to holds a copy. -/
theorem independentCopy_assign (hm : m.Sound) (hid : m.Knows (.record id)) {place : Place}
    (hplace : place.location.Made m)
    (hapart : ∀ s, m.Unfolds 0 (.record id) s → place.location ∉ s.locations)
    (ht : ∀ t ∈ place.type?, t.Definite)
    (h : (place.assign (.record id) pos).exec m = .ok w m₁) :
    place.read.exec m₁ = .ok w m₁ ∧ IndependentCopy m m₁ (.record id) w ∧
      ∀ l : Location, l.Made m → l ≠ place.location → l.Same m m₁ := by
  obtain ⟨fitted, m₂, hfit, hstore, -⟩ := Traced.exec_bind_eq_ok h
  obtain ⟨_, m₃, hwrite, hread, -⟩ := Traced.exec_bind_eq_ok hstore
  obtain ⟨rfl, rfl⟩ := read_of_write hwrite hread
  obtain ⟨hadds, s, t, hcopied⟩ := copiedApart_fit hm hid ht hfit
  obtain ⟨hstructs, hsame⟩ := same_of_write hwrite
  refine ⟨hread, ?_, fun l hl hne => (hadds.same l hl).trans (hsame l hne)⟩
  refine (hcopied.of_same hstructs (fun l hl => hsame l ?_) fun l hl => hsame l ?_).independentCopy
  · rintro rfl
    exact hapart s hcopied.before hl
  · rintro rfl
    exact hcopied.new _ hl hplace

/-- The result of a call is a copy of the struct value that was returned. -/
theorem independentCopy_callResult (hm : m.Sound) (hid : m.Knows (.record id)) {f : FunctionDef}
    (hauto : ¬f.returnType.isAuto)
    (h : (callResult f pos (.return (some (.record id)))).exec m = .ok (some w) m₁) :
    m.Adds m₁ ∧ IndependentCopy m m₁ (.record id) w := by
  rw [callResult] at h
  split at h
  · cases h
  · rename_i hvoid
    obtain ⟨v, m', hconvert, hpure, -⟩ := Traced.exec_bind_eq_ok h
    cases hpure
    obtain ⟨hadds, s, t, hcopied⟩ := copiedApart_convert hm hid (.refl m) ⟨hauto, hvoid⟩ hconvert
    exact ⟨hadds, hcopied.independentCopy⟩

end

/-! ## Variables that are made -/

/-- Whether a name means a variable that holds a value. -/
def Means (m : Machine) (name : Token) (v : Value) : Prop :=
  ∃ b, m.lookup name.id = some b ∧ m.arena.buffer? b.handle = some #[v]

theorem lookup_of_adds (hadds : m.Adds m₁) (n : Nat) : m₁.lookup n = m.lookup n := by
  rw [hadds.rest]
  rfl

theorem nested_of_adds (hadds : m.Adds m₁) (hm : m.Nested) : m₁.Nested := by
  rw [hadds.rest]
  exact ⟨hm.current, hm.parents, hm.global⟩

/-- A variable that is made holds its value, and no other name means another variable than
before. -/
theorem means_introduce (hm : m.Nested) {name : Leaf} {t : CType} {v : Value}
    (h : (introduce name t v).exec m = .ok () m₁) :
    m.Spares m₁ ∧ m₁.Nested ∧ Means m₁ name.token v ∧
      ∀ n, n ≠ name.token.id → m₁.lookup n = m.lookup n := by
  obtain rfl : m.bind name.token.id t v = m₁ := by
    cases h
    rfl
  refine ⟨m.spares_bind _ t v, Machine.nested_bind hm _ t v, ⟨⟨m.arena.next, t⟩, ?_, ?_⟩,
    fun n hn => ?_⟩
  · rw [Machine.lookup_bind hm, if_pos rfl]
  · show (m.arena.alloc #[v]).2.buffer? m.arena.next = _
    rw [Arena.buffer?_alloc, if_pos rfl]
  · rw [Machine.lookup_bind hm, if_neg hn]

/-- A variable keeps its value while what was made before is kept. -/
theorem Means.kept {name : Token} {v : Value} (h : Means m name v) (hspares : m.Spares m₁)
    (hlookup : m₁.lookup name.id = m.lookup name.id) : Means m₁ name v := by
  obtain ⟨b, hb, hbuffer⟩ := h
  have hlive : m.arena.Live b.handle := by
    rw [Arena.Live, hbuffer]
    rfl
  have hsame : m₁.arena.buffer? b.handle = m.arena.buffer? b.handle :=
    hspares.same (.buffer b.handle) hlive.bounds.2
  exact ⟨b, hlookup.trans hb, hsame.trans hbuffer⟩

/-- The type of a struct value is that of a struct. -/
theorem definite_of_typeOfValue {id : Nat} {pos : Option Position} {t : CType}
    (h : (typeOfValue pos (.record id)).exec m = .ok t m₁) : t.Definite ∧ m₁ = m := by
  obtain ⟨_, _, hget, hlift, -⟩ := Traced.exec_bind_eq_ok h
  cases hget
  cases hwords : m.structs.typeOf ["struct", (m.records.get id).tag] with
  | error e =>
    rw [hwords] at hlift
    cases hlift
  | ok u =>
    rw [hwords] at hlift
    cases hlift
    exact ⟨CType.definite_of_ofWords_struct hwords, rfl⟩

/-- After an initialization with a struct value, the variable holds a copy. -/
theorem independentCopy_declareValue (hm : m.Sound) (hnested : m.Nested) {id : Nat}
    (hid : m.Knows (.record id)) {ctx : Context} {d : Declarator} {t : CType} {init : Expr}
    {m₀ : Machine} (hinit : (eval ctx init).exec m₀ = .ok (.record id) m) (hvoid : ¬t.isVoid)
    (h : (declareValue ctx d t init).exec m₀ = .ok () m₁) :
    m.Spares m₁ ∧ ∃ w, Means m₁ d.name.token w ∧ IndependentCopy m m₁ (.record id) w := by
  obtain ⟨v, m', hv, htype, -⟩ := Traced.exec_bind_eq_ok h
  rw [hinit] at hv
  cases hv
  have hfinish : ∀ u : CType, u.Definite →
      (do introduce d.name u (← convert u (.record id) (some init.pos)) : Run Unit).exec m
        = .ok () m₁ →
      m.Spares m₁ ∧ ∃ w, Means m₁ d.name.token w ∧ IndependentCopy m m₁ (.record id) w := by
    intro u hu hconvert
    obtain ⟨w, m₂, hw, hintroduce, -⟩ := Traced.exec_bind_eq_ok hconvert
    obtain ⟨hadds, s, t, hcopied⟩ := copiedApart_convert hm hid (.refl _) hu hw
    obtain ⟨hspares, -, hmeans, -⟩ := means_introduce (nested_of_adds hadds hnested) hintroduce
    exact ⟨hadds.toSpares.trans hspares, w, hmeans, (hcopied.kept hspares).independentCopy⟩
  dsimp only at htype
  split at htype
  · obtain ⟨u, m', hu, hconvert, -⟩ := Traced.exec_bind_eq_ok htype
    obtain ⟨hdefinite, rfl⟩ := definite_of_typeOfValue hu
    exact hfinish u hdefinite hconvert
  · exact hfinish t ⟨‹_›, hvoid⟩ htype

/-! ## Arguments -/

/-- The declared type of a variable depends on the struct table only. -/
theorem declaredType_eq_ok {known : Nat → Option CType} {d : Declarator} {t : CType}
    (h : (declaredType known d).exec m₁ = .ok t m₂) :
    m₂ = m₁ ∧ ∀ m : Machine, m.structs = m₁.structs →
      (declaredType known d).exec m = .ok t m := by
  obtain ⟨u, m', hu, hpure, -⟩ := Traced.exec_bind_eq_ok h
  cases hpure
  obtain rfl := (still_resolve known d.type).eq_of_ok hu
  refine ⟨rfl, fun m hstructs => ?_⟩
  have hnamed : ∀ m : Machine, m.structs = m₂.structs →
      (typeNamed d.type).exec m₂ = .ok u m₂ → (typeNamed d.type).exec m = .ok u m := by
    intro m hstructs hu
    unfold typeNamed at hu ⊢
    rw [Traced.exec_bind_of_ok _ (Traced.exec_get _)] at hu ⊢
    rw [hstructs]
    cases hwords : m₂.structs.typeOf d.type.words with
    | error e =>
      rw [hwords] at hu
      cases hu
    | ok v =>
      rw [hwords] at hu
      cases hu
      rfl
  have hresolve : (resolve known d.type).exec m = .ok u m := by
    unfold resolve at hu ⊢
    split at hu
    · exact hnamed m hstructs hu
    · split at hu
      · cases hu
        rw [if_pos ‹_›]
        rfl
      · rw [if_neg ‹_›]
        exact hnamed m hstructs hu
  rw [declaredType, Traced.exec_bind_of_ok _ hresolve]
  rfl

/-- The variables of parameters hold copies of the struct values that are their arguments. A later
parameter of the same name would take the place of an earlier one. -/
theorem independentCopy_bindParams (hm : m.Sound) {known : Nat → Option CType}
    {params : List Declarator} {args : List Value} (hargs : ∀ v ∈ args, m.Knows v)
    (hspares : m.Spares m₁) (hnested : m₁.Nested)
    (h : (bindParams known params args).exec m₁ = .ok () m₂) :
    m₁.Spares m₂ ∧
    (∀ n, (∀ d ∈ params, n ≠ d.name.token.id) → m₂.lookup n = m₁.lookup n) ∧
    ∀ (k : Nat) d id, params[k]? = some d → args[k]? = some (.record id) →
      (∀ d' ∈ params.drop (k + 1), d.name.token.id ≠ d'.name.token.id) →
      (∀ t, (declaredType known d).exec m = .ok t m → t.Definite) →
      ∃ w, Means m₂ d.name.token w ∧ IndependentCopy m m₂ (.record id) w := by
  induction params generalizing args m₁ with
  | nil =>
    cases h
    exact ⟨.refl _, fun _ _ => rfl, fun k d id hd => by cases hd⟩
  | cons d params ih =>
    cases args with
    | nil =>
      cases h
      exact ⟨.refl _, fun _ _ => rfl, fun k d id _ harg => by cases harg⟩
    | cons v args =>
      obtain ⟨t, _, htype, hmore, -⟩ := Traced.exec_bind_eq_ok h
      obtain ⟨w, m', hconvert, hmore, -⟩ := Traced.exec_bind_eq_ok hmore
      obtain ⟨_, m'', hintroduce, hrest, -⟩ := Traced.exec_bind_eq_ok hmore
      obtain ⟨rfl, htype⟩ := declaredType_eq_ok htype
      rw [List.forall_mem_cons] at hargs
      have hadds := adds_convert hm hargs.1 hspares hconvert
      obtain ⟨hspares', hnested', hmeans, hlookup⟩ :=
        means_introduce (nested_of_adds hadds hnested) hintroduce
      obtain ⟨hspares'', hlookup', hcopies⟩ := ih hargs.2
        ((hspares.trans hadds.toSpares).trans hspares') hnested' hrest
      refine ⟨(hadds.toSpares.trans hspares').trans hspares'', fun n hn => ?_,
        fun k d' id hd harg hlater hdefinite => ?_⟩
      · rw [List.forall_mem_cons] at hn
        rw [hlookup' n hn.2, hlookup n hn.1, lookup_of_adds hadds]
      · cases k with
        | zero =>
          cases hd
          cases harg
          obtain ⟨-, s, t', hcopied⟩ := copiedApart_convert hm hargs.1 hspares
            (hdefinite t (htype m hspares.structs.symm)) hconvert
          -- No later parameter has the name, so it still means the copy that was made for this one.
          refine ⟨w, hmeans.kept hspares'' (hlookup' _ hlater), ?_⟩
          exact (hcopied.kept (hspares'.trans hspares'')).independentCopy
        | succ k => exact hcopies k d' id hd harg hlater hdefinite

/-! ## All copies -/

/-- A copy of a struct value is independent of it, and so is what an assignment leaves in its place,
what an initialization or a parameter leaves in its variable, and what a call returns, if the type
of the place, the variable or the result says something about the values there. All states of runs
are sound and have nested scopes: see `Program.sound_of_visits`. -/
theorem copies_independent {m : Machine} (hm : m.Sound) {id : Nat} (hid : m.Knows (.record id)) :
    (∀ w m', (copy (.record id)).exec m = .ok w m' →
      m.Adds m' ∧ IndependentCopy m m' (.record id) w) ∧
    (∀ (place : Place) pos w m', place.location.Made m →
      (∀ s, m.Unfolds 0 (.record id) s → place.location ∉ s.locations) →
      (∀ t ∈ place.type?, t.Definite) → (place.assign (.record id) pos).exec m = .ok w m' →
      place.read.exec m' = .ok w m' ∧ IndependentCopy m m' (.record id) w ∧
        ∀ l : Location, l.Made m → l ≠ place.location → l.Same m m') ∧
    (∀ ctx d t init m₀ m', (eval ctx init).exec m₀ = .ok (.record id) m → m.Nested → ¬t.isVoid →
      (declareValue ctx d t init).exec m₀ = .ok () m' →
      m.Spares m' ∧ ∃ w, Means m' d.name.token w ∧ IndependentCopy m m' (.record id) w) ∧
    (∀ known params args m', (∀ v ∈ args, m.Knows v) → m.Nested →
      (bindParams known params args).exec m = .ok () m' →
      m.Spares m' ∧ ∀ (k : Nat) d, params[k]? = some d → args[k]? = some (.record id) →
        (∀ d' ∈ params.drop (k + 1), d.name.token.id ≠ d'.name.token.id) →
        (∀ t, (declaredType known d).exec m = .ok t m → t.Definite) →
        ∃ w, Means m' d.name.token w ∧ IndependentCopy m m' (.record id) w) ∧
    (∀ f pos w m', ¬f.returnType.isAuto →
      (callResult f pos (.return (some (.record id)))).exec m = .ok (some w) m' →
      m.Adds m' ∧ IndependentCopy m m' (.record id) w) := by
  refine ⟨fun w m' h => ?_, fun place pos w m' hplace hapart ht h => ?_,
    fun ctx d t init m₀ m' hinit hnested hvoid h => ?_,
    fun known params args m' hargs hnested h => ?_, fun f pos w m' hauto h => ?_⟩
  · obtain ⟨hadds, s, t, hcopied⟩ := copiedApart_copy hm hid (.refl m) h
    exact ⟨hadds, hcopied.independentCopy⟩
  · exact independentCopy_assign hm hid hplace hapart ht h
  · exact independentCopy_declareValue hm hnested hid hinit hvoid h
  · obtain ⟨hspares, -, hcopies⟩ := independentCopy_bindParams hm hargs (.refl m) hnested h
    exact ⟨hspares, fun k d hd harg => hcopies k d id hd harg⟩
  · exact independentCopy_callResult hm hid hauto h

/-- A state with the struct `struct P{int row[2]; int n;}` and the variables `a` and `b` of its type,
in the buffers 3 and 4. -/
def pairs : Machine :=
  { Machine.start with
    arena := ⟨#[some #[.int (.plain 1), .int (.plain 2)], some #[.int (.plain 0), .int (.plain 0)],
      some #[.record 0], some #[.record 1]]⟩
    records := ⟨#[
      ⟨"P", [("row", .pointer ⟨1, 0, some .int⟩), ("n", .int (.plain 7))]⟩,
      ⟨"P", [("row", .pointer ⟨2, 0, some .int⟩), ("n", .int (.plain 0))]⟩]⟩
    structs := ⟨#[⟨"P", [⟨"row", CType.int.pointer, some [2]⟩, ⟨"n", .int, none⟩]⟩]⟩ }

theorem sound_pairs : pairs.Sound :=
  Machine.sound_of_forall (by decide) (by decide)

/-- The variable `b`, with a type for its values. -/
def second (t : CType) : Place := .slot ⟨4, 0, some t⟩

/-- The variable `b` does not belong to the struct value in the variable `a`. -/
theorem second_apart (t : CType) (s : Shape) (hs : pairs.Unfolds 0 (.record 0) s) :
    (second t).location ∉ s.locations := by
  cases hs with
  | plain hplain => exact hplain.elim
  | struct hrecord hparts =>
    cases hrecord
    cases hparts with
    | cons hrow hrest =>
      cases hrow with
      | plain hplain => cases hplain
      | array hbuffer hitems =>
        cases hbuffer
        have hitems' := hitems.locations_eq_nil (by simp [Value.IsPlain])
        have hrest' := hrest.locations_eq_nil (by simp [Value.IsPlain])
        simp [Shape.locations, Shape.locations.locationsAll, hitems', hrest', second,
          Place.location]

/-- After `b = a`, the variable `b` holds a copy with a row of its own. -/
theorem copies_independent_pairs :
    ∃ m', ((second ⟨false, .struct "P" 0, []⟩).assign (.record 0) none).exec pairs =
        .ok (.record 2) m' ∧ IndependentCopy pairs m' (.record 0) (.record 2) := by
  obtain ⟨m', hassign⟩ : ∃ m', ((second ⟨false, .struct "P" 0, []⟩).assign (.record 0) none).exec
      pairs = .ok (.record 2) m' := Traced.exists_exec_of_run' (by decide +kernel)
  obtain ⟨-, hcopies, -⟩ :=
    copies_independent sound_pairs (show pairs.Knows (.record 0) by decide)
  exact ⟨m', hassign,
    (hcopies _ none _ m' (by decide) (second_apart _) (by decide) hassign).2.1⟩

end Run

namespace Program

/-! ## A copy that is not made -/

/-- A declaration with a type of two words. -/
def sampleVariable (first second name : Token) (slot : Nat) (init : Option Expr) : Stmt :=
  .line [.declare ⟨⟨⟨first, [second], slot⟩, ⟨name, slot + 1⟩, [], init⟩, []⟩]

/-- The program `struct S {int n;}; int main(){struct S x; struct S y; auto *p = &x; auto *q = &y;
*p = *q; y.n = 5; printf(x.n); return 0;}`. -/
def sharing : Program where
  items := [
    .struct (sampleName "S" 2 8 0)
      [⟨⟨sampleToken .typeKeyword "int" 4 11, [], 1⟩, sampleName "n" 5 15 2, [], none⟩],
    .function ⟨sampleToken .typeKeyword "int" 4 20, [], 3⟩ (sampleName "main" 8 24 4) [] [
      sampleVariable (sampleToken .typeKeyword "struct" 1 31) (sampleToken .identifier "S" 2 38)
        (sampleToken .identifier "x" 11 40) 5 none,
      sampleVariable (sampleToken .typeKeyword "struct" 1 43) (sampleToken .identifier "S" 2 50)
        (sampleToken .identifier "y" 12 52) 7 none,
      sampleVariable (sampleToken .typeKeyword "auto" 13 55) (sampleToken .punctuator "*" 14 60)
        (sampleToken .identifier "p" 15 61) 9
        (some (.unary .address (.identifier (sampleName "x" 11 66 11)))),
      sampleVariable (sampleToken .typeKeyword "auto" 13 69) (sampleToken .punctuator "*" 14 74)
        (sampleToken .identifier "q" 18 75) 12
        (some (.unary .address (.identifier (sampleName "y" 12 80 14)))),
      .line [.expr (.assign none (.unary .deref (.identifier (sampleName "p" 15 84 15)))
        (.unary .deref (.identifier (sampleName "q" 18 89 16))))],
      .line [.expr (.assign none (.member (.identifier (sampleName "y" 12 92 17))
        (sampleName "n" 5 94 18)) (sampleNumber "5" 20 98 19))],
      .line [.expr (.call (.identifier (sampleName "printf" 21 101 20))
        [.member (.identifier (sampleName "x" 11 108 21)) (sampleName "n" 5 110 22)])],
      .line [.return (some (sampleNumber "0" 23 121 23))]]]

/-- An assignment through a pointer to `auto` leaves no copy in its place but the struct value
itself, and the accepted program prints the 5 that it stored in the other variable. -/
theorem not_copies_independent :
    sharing.Accepted ∧ (sharing.run (fun _ => none) 100).2.output = "5\n" ∧
    ¬∀ (m m' : Machine) (id : Nat) (place : Place) (v : Value), m.Sound → m.Knows (.record id) →
      place.location.Made m → (∀ s, m.Unfolds 0 (.record id) s → place.location ∉ s.locations) →
      (place.assign (.record id) none).exec m = .ok v m' →
      Run.IndependentCopy m m' (.record id) v := by
  have haccepted : sharing.Accepted := by
    unfold Accepted
    cbv
  refine ⟨haccepted, by decide +kernel, fun hall => ?_⟩
  let place := Run.second ⟨false, .auto, []⟩
  obtain ⟨m', hassign⟩ : ∃ m', (place.assign (.record 0) none).exec Run.pairs =
      .ok (.record 0) m' := ⟨_, rfl⟩
  -- the place holds the struct value itself, which was there before
  obtain ⟨s, t, hcopied, -⟩ := hall _ _ _ place _ Run.sound_pairs (by decide) (by decide)
    (Run.second_apart _) hassign
  have hmem : Location.record 0 ∈ t.locations := by
    cases hcopied.unfolds with
    | plain hplain => exact hplain.elim
    | struct hrecord hparts => simp [Shape.locations]
  exact hcopied.new _ hmem (by decide)

end Program

end MiniC
