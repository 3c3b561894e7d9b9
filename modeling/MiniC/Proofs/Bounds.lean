import MiniC.Proofs.Analyses
import MiniC.Proofs.Composed

set_option autoImplicit false

/-! # Runs in which all bounds fit

If no struct of a program declares a field twice, the bounds of all fields fit at every moment of a
run, and no run of the program is stopped because of them. Nothing but the declaration of a struct
changes the struct table: neither the evaluation of a bound nor anything else that is done between
two fields. A program that the analysis accepts declares no field twice. -/

namespace MiniC

/-! ## Steps between declarations of structs -/

namespace Run

variable {α β : Type} {m : Machine}

/-- Whether a run is not stopped for bad bounds, and its result and the state at the end satisfy
`Q`. -/
def Sound (x : Run α) (m : Machine) (Q : α → Machine → Prop) : Prop :=
  match x.exec m with
  | .ok a t => Q a t
  | .error stop _ => stop ≠ .badBounds

theorem sound_pure {a : α} {Q : α → Machine → Prop} (h : Q a m) : Sound (pure a) m Q := h

theorem sound_modify {f : Machine → Machine} {Q : PUnit → Machine → Prop} (h : Q () (f m)) :
    Sound (modify f) m Q := h

theorem Sound.bind {x : Run α} {f : α → Run β} {P : α → Machine → Prop}
    {Q : β → Machine → Prop} (hx : Sound x m P) (hf : ∀ a t, P a t → Sound (f a) t Q) :
    Sound (x >>= f) m Q := by
  unfold Sound at hx ⊢
  cases hexec : x.exec m with
  | ok a t =>
    rw [hexec] at hx
    rw [Traced.exec_bind_of_ok f hexec]
    exact hf a t hx
  | error stop t =>
    rw [hexec] at hx
    rw [Traced.exec_bind_of_error f hexec]
    exact hx

theorem Sound.imp {x : Run α} {P Q : α → Machine → Prop} (hx : Sound x m P)
    (h : ∀ a t, x.exec m = .ok a t → P a t → Q a t) : Sound x m Q := by
  unfold Sound at hx ⊢
  cases hexec : x.exec m with
  | ok a t =>
    rw [hexec] at hx
    exact h a t hexec hx
  | error stop t =>
    rw [hexec] at hx
    exact hx

/-- A run between two changes of the state. -/
theorem Sound.between {x : Run α} {first last : Option Deed} {enter leave : Machine → Machine}
    {Q : α → Machine → Prop} (hx : Sound x (enter m) fun a t => Q a (leave t)) :
    Sound (x.between first last enter leave) m Q := by
  unfold Sound at hx ⊢
  simp only [Traced.between]
  cases hexec : x.exec (enter m) with
  | ok a t =>
    rw [hexec] at hx
    exact hx
  | error stop t =>
    rw [hexec] at hx
    exact hx

/-- Whether a run leaves the struct table as it is, and is not stopped for bad bounds as long as the
bounds in the table fit. -/
def Tabled (x : Run α) : Prop :=
  ∀ m : Machine, m.structs.Fits → Sound x m fun _ t => t.structs = m.structs

theorem structs_pop (m : Machine) : m.pop.structs = m.structs := by
  unfold Machine.pop
  split <;> rfl

theorem tabled_located {x : Run α} (pos : Option Position) (hx : Tabled x) :
    Tabled (located pos x) := by
  intro m hm
  have h := hx m hm
  unfold Sound at h ⊢
  simp only [located, Traced.mapError]
  cases hexec : x.exec m with
  | ok a t =>
    rw [hexec] at h
    exact h
  | error stop t =>
    rw [hexec] at h
    cases stop with
    | fault cause at? => cases at? <;> rintro ⟨⟩
    | _ => exact h

theorem tabled_inScope {x : Run α} (hx : Tabled x) : Tabled (inScope x) := fun m hm =>
  Sound.between ((hx (m.push m.current) hm).imp fun _ t _ ht => (structs_pop t).trans ht)

theorem tabled_inCall {x : Run α} (name : String) (hx : Tabled x) : Tabled (inCall name x) := by
  intro m hm
  change Sound
    (x.between (some .call) (some .return) (·.enterCall name) (·.leaveCall m.current)) m _
  exact Sound.between ((hx (m.enterCall name) hm).imp fun _ t _ ht => (structs_pop t).trans ht)

/-- All steps but the declarations of structs leave the struct table as it is. -/
theorem composed_tabled : Composed @Tabled where
  pure _ := fun _ _ => rfl
  bind hx hf := fun m hm => (hx m hm).bind fun a t ht => by
    rw [← ht] at hm ⊢
    exact hf a t hm
  stop _ h := fun _ _ => h
  anyStop _ h _ := fun _ _ => h
  missingLabel _ _ := fun _ _ h => by cases h
  observe _ hf := fun m hm => hf m (fun hn => absurd hm hn) m hm
  observeName _ _ _ hf := fun m hm => hf m m hm
  alloc _ := fun _ _ => rfl
  put _ _ := fun _ _ => rfl
  beside f hf _ := fun m _ => by
    obtain ⟨records, output, events, -, h⟩ := hf m
    change (f m).2.structs = m.structs
    rw [h]
  own _ := fun _ _ => rfl
  keepString _ _ := fun _ _ => rfl
  use _ := fun _ _ => rfl
  bindName _ _ _ := fun _ _ => rfl
  introduce _ _ _ := fun _ _ => rfl
  register f hf _ := fun m _ => by
    obtain ⟨functions, prototypes, h⟩ := hf m
    change (f m).structs = m.structs
    rw [h]
  located := tabled_located
  inScope := tabled_inScope
  inCall := tabled_inCall

/-! ## Declarations of structs -/

theorem length_of_sizesOf {eval : Expr → Run Value} {needed : Nat} {dims : List Dim}
    {sizes : List Nat} {t : Machine} (h : (sizesOf eval needed dims).exec m = .ok sizes t) :
    sizes.length = dims.length := by
  induction dims generalizing needed sizes m t with
  | nil =>
    cases h
    rfl
  | cons dim rest ih =>
    cases dim with
    | unsized =>
      obtain ⟨sizes', t', hrest, hsizes, -⟩ := Traced.exec_bind_eq_ok h
      cases hsizes
      exact congrArg (· + 1) (ih hrest)
    | sized size =>
      obtain ⟨v, t', -, hsizes, -⟩ := Traced.exec_bind_eq_ok h
      cases v with
      | int n =>
        dsimp only at hsizes
        split at hsizes
        · cases hsizes
        · obtain ⟨sizes', t', hrest, hsizes, -⟩ := Traced.exec_bind_eq_ok hsizes
          cases hsizes
          exact congrArg (· + 1) (ih hrest)
      | _ => cases hsizes

theorem length_of_arraySizes {eval : Expr → Run Value} {d : Declarator} {init : Option Expr}
    {sizes : List Nat} {t : Machine} (h : (arraySizes eval d init).exec m = .ok sizes t) :
    sizes.length = d.dims.length := by
  unfold arraySizes at h
  split at h
  · cases h
  · exact length_of_sizesOf h

theorem element?_of_declaredType {known : Nat → Option CType} {d : Declarator} {type : CType}
    {t : Machine} (h : (declaredType known d).exec m = .ok type t) :
    (type.element? d.dims.length).isSome := by
  obtain ⟨base, t', -, htype, -⟩ := Traced.exec_bind_eq_ok h
  cases htype
  rw [CType.element?_pointers]
  rfl

section

variable {ctx : Context} (hctx : ComposedIn @Tabled ctx)

include hctx

/-- A field with a new name gets a type that fits its bounds. -/
theorem sound_structField {decl : Nat} {d : Declarator} (hm : m.structs.Fits)
    (hnew : d.name.token.text ∉ m.structs.namesAt decl) :
    Sound (structField ctx decl d) m fun _ t => t.structs.Fits ∧
      t.structs.namesAt decl ⊆ d.name.token.text :: m.structs.namesAt decl := by
  refine ((hctx.declaredType ctx.known d m hm).imp fun type t htype ht =>
    And.intro (element?_of_declaredType htype) ht).bind ?_
  rintro type t ⟨htype, ht⟩
  rw [← ht] at hm hnew ⊢
  have hadded : (t.structs.addField decl ⟨d.name.token.text, type, none⟩).Fits :=
    hm.addField nofun fun _ => hnew
  refine (sound_modify (Q := fun _ t' =>
    t'.structs = t.structs.addField decl ⟨d.name.token.text, type, none⟩) rfl).bind ?_
  rintro ⟨⟩ t' ht'
  rw [← ht'] at hadded
  have hnames := ht' ▸ t.structs.namesAt_addField decl ⟨d.name.token.text, type, none⟩
  split
  · refine ((hctx.arraySizes d none t' hadded).imp fun sizes u hsizes hu =>
      And.intro (length_of_arraySizes hsizes) hu).bind ?_
    rintro sizes u ⟨hlength, hu⟩
    refine sound_modify ⟨?_, ?_⟩
    · rw [hu]
      refine hadded.addField ?_ nofun
      rintro bounds ⟨⟩
      rw [hlength]
      exact htype
    · rw [hu]
      intro name hname
      rcases List.mem_cons.mp (t'.structs.namesAt_addField decl _ hname) with rfl | hname
      · exact List.mem_cons_self
      · exact hnames hname
  · exact sound_pure ⟨hadded, hnames⟩

/-- By induction on the fields that are left, whose names are all new. -/
theorem sound_structFields {decl : Nat} {fields : List Declarator} (hm : m.structs.Fits)
    (hnew : ∀ d ∈ fields, d.name.token.text ∉ m.structs.namesAt decl)
    (hdistinct : (fields.map (·.name.token.text)).Nodup) :
    Sound (fields.forM (structField ctx decl)) m fun _ t => t.structs.Fits := by
  induction fields generalizing m with
  | nil => exact sound_pure hm
  | cons d rest ih =>
    obtain ⟨hd, hrest⟩ := List.forall_mem_cons.mp hnew
    obtain ⟨hfirst, hdistinct⟩ := List.nodup_cons.mp hdistinct
    refine (sound_structField hctx hm hd).bind ?_
    rintro _ t ⟨ht, hnames⟩
    refine ih ht (fun e he hmem => ?_) hdistinct
    rcases List.mem_cons.mp (hnames hmem) with hsame | hmem
    · exact hfirst (List.mem_map.mpr ⟨e, he, hsame⟩)
    · exact hrest e he hmem

theorem sound_structDecl {name : Leaf} {fields : List Declarator} (hm : m.structs.Fits)
    (hdistinct : (fields.map (·.name.token.text)).Nodup) :
    Sound (structDecl ctx name fields) m fun _ t => t.structs.Fits := by
  refine Sound.bind (P := fun decl t => t.structs.Fits ∧ t.structs.namesAt decl = [])
    ⟨hm.declare _, m.structs.namesAt_declare _⟩ ?_
  rintro decl t ⟨ht, hnames⟩
  refine sound_structFields hctx ht (fun d _ => ?_) hdistinct
  rw [hnames]
  exact List.not_mem_nil

end

end Run

/-! ## Declarations of structs in the analysis -/

namespace Check

variable {α β : Type}

/-- Whether a step of the analysis leaves the struct table as it is. -/
def Tabled (x : Check α) : Prop :=
  ∀ a : Analysis, (x.after a).structs = a.structs

theorem Tabled.bind {x : Check α} {f : α → Check β} (hx : Tabled x) (hf : ∀ r, Tabled (f r)) :
    Tabled (x >>= f) := by
  intro a
  have hafter := hx a
  cases hexec : x.exec a with
  | ok r t =>
    rw [Traced.after_of_ok hexec] at hafter
    rw [Traced.after_bind_of_ok f hexec, hf r t, hafter]
  | error e t =>
    rw [Traced.after_bind_of_error f hexec, hafter]

theorem closed_tabled : Closed @Tabled where
  pure _ := fun _ => rfl
  bind := Tabled.bind
  fail _ _ := fun _ => rfl
  get := fun _ => rfl

theorem tabled_annotate (slot : Nat) (t : CType) : Tabled (annotate slot t) :=
  closed_tabled.annotate fun _ => rfl

theorem composed_tabled (l : List Occurrence) : Composed @Tabled l where
  toClosed := closed_tabled
  note _ := fun _ => rfl
  variableType leaf _ := closed_tabled.variableType (fun _ _ => rfl) (tabled_annotate leaf.slot)
  literal leaf kind _ := tabled_annotate leaf.slot kind.ctype
  resolve name _ := closed_tabled.resolve (tabled_annotate name.slot)
  declare := closed_tabled.declare fun _ _ _ _ => rfl
  label := closed_tabled.label fun _ _ _ _ => rfl
  goto := closed_tabled.goto fun _ _ _ _ => rfl
  scope _ _ hbody := Tabled.bind (fun _ => rfl) fun _ => hbody.bind fun _ _ => rfl

/-- Only the declarations of structs change the structs. -/
theorem tabled_item {i : Item} (hi : ∀ name fields, i ≠ .struct name fields) : Tabled (item i) := by
  have hcomposed := composed_tabled i.occurrences
  refine hcomposed.item i (List.Subset.refl _) (fun head hhead => ?_) fun name fields heq => ?_
  · refine hcomposed.declareHead hhead (List.Subset.refl _) ?_
    exact closed_tabled.signature fun _ _ _ _ => rfl
  · exact absurd heq (hi name fields)

/-- The analysis adds a field to a struct only if it does not have the type of the struct itself, and
if its name is new. -/
theorem structField_eq_ok {tag : String} {decl : Nat} {d : Declarator} {a t : Analysis}
    (h : (structField tag decl d).exec a = .ok () t) :
    ∃ type b, (declaredType d).exec a = .ok type b ∧ b.structs = a.structs ∧
      ¬(type.isStruct ∧ type.tag? = some tag) ∧
      (a.structs.decls[decl]?).bind (·.field? d.name.token.text) = none ∧
      t.structs = a.structs.addField decl ⟨d.name.token.text, type, none⟩ := by
  obtain ⟨type, b, htype, h, -⟩ := Traced.exec_bind_eq_ok h
  have hb : b.structs = a.structs := by
    rw [← Traced.after_of_ok htype]
    exact (composed_tabled d.occurrences).declaredType d (List.Subset.refl _) a
  dsimp only at h
  split at h
  · cases h
  rename_i hself
  split at h
  · cases h
  obtain ⟨c, c', hget, h, -⟩ := Traced.exec_bind_eq_ok h
  cases hget
  split at h
  · cases h
  rename_i hknown
  cases h
  rw [hb] at hknown
  refine ⟨type, b, htype, hb, by simpa using hself, by simpa using hknown, ?_⟩
  exact congrArg (StructTable.addField · decl _) hb

/-- The analysis adds a field to a struct only if its name is new. -/
theorem names_of_structField {tag : String} {decl : Nat} {d : Declarator} {a t : Analysis}
    {s : StructDecl} (hs : a.structs.decls[decl]? = some s)
    (h : (structField tag decl d).exec a = .ok () t) :
    d.name.token.text ∉ s.names ∧
      ∃ s', t.structs.decls[decl]? = some s' ∧ s'.names = s.names ++ [d.name.token.text] := by
  obtain ⟨type, b, -, -, -, hnew, ht⟩ := structField_eq_ok h
  rw [hs, Option.bind_some, StructDecl.field?_eq_none_iff] at hnew
  refine ⟨hnew, s.addField ⟨d.name.token.text, type, none⟩, ?_, ?_⟩
  · rw [ht, StructTable.addField, Array.getElem?_modify, if_pos rfl, hs]
    rfl
  · rw [StructDecl.names_addField, if_neg hnew]

theorem nodup_of_structFields {tag : String} {decl : Nat} {fields : List Declarator}
    {a t : Analysis} {s : StructDecl} (hs : a.structs.decls[decl]? = some s)
    (h : (fields.forM (structField tag decl)).exec a = .ok () t) :
    (∀ d ∈ fields, d.name.token.text ∉ s.names) ∧
      (fields.map (·.name.token.text)).Nodup := by
  induction fields generalizing a s with
  | nil => exact ⟨List.forall_mem_nil _, List.nodup_nil⟩
  | cons d rest ih =>
    obtain ⟨_, b, hfield, hrest, -⟩ := Traced.exec_bind_eq_ok h
    obtain ⟨hnew, s', hs', hnames⟩ := names_of_structField hs hfield
    obtain ⟨hfree, hdistinct⟩ := ih hs' hrest
    simp only [hnames, List.mem_append, List.mem_singleton, not_or] at hfree
    refine ⟨List.forall_mem_cons.mpr ⟨hnew, fun e he => (hfree e he).1⟩, ?_⟩
    refine List.nodup_cons.mpr ⟨fun hmem => ?_, hdistinct⟩
    obtain ⟨e, he, hsame⟩ := List.mem_map.mp hmem
    exact (hfree e he).2 hsame

/-- The analysis declares a struct only under a new tag. -/
theorem structDecl_eq_ok {name : Leaf} {fields : List Declarator} {a t : Analysis}
    (h : (structDecl name fields).exec a = .ok () t) :
    a.structs.find? name.token.text = none ∧
      (fields.forM (structField name.token.text a.structs.decls.size)).exec
        { a with structs := (a.structs.declare name.token.text).2 } = .ok () t := by
  obtain ⟨b, b', hget, h, -⟩ := Traced.exec_bind_eq_ok h
  cases hget
  obtain ⟨c, c', hget, h, -⟩ := Traced.exec_bind_eq_ok h
  cases hget
  dsimp only at h
  split at h
  · cases h
  rename_i hnew
  obtain ⟨_, u, hmodify, h, -⟩ := Traced.exec_bind_eq_ok h
  cases hmodify
  exact ⟨by simpa using hnew, h⟩

theorem nodup_of_structDecl {name : Leaf} {fields : List Declarator} {a t : Analysis}
    (h : (structDecl name fields).exec a = .ok () t) :
    (fields.map (·.name.token.text)).Nodup := by
  obtain ⟨-, hfields⟩ := structDecl_eq_ok h
  have hs : (a.structs.decls.push ⟨name.token.text, []⟩)[a.structs.decls.size]? =
      some ⟨name.token.text, []⟩ := Array.getElem?_push_size
  exact (nodup_of_structFields hs hfields).2

end Check

/-! ## Programs -/

namespace Program

/-- Whether no struct of a program declares two fields of one name. -/
def FieldsDistinct (p : Program) : Prop :=
  ∀ name fields, .struct name fields ∈ p.items → (fields.map (·.name.token.text)).Nodup

theorem sound_program {p : Program} (h : p.FieldsDistinct) (known : Nat → Option CType)
    (fuel : Nat) : Run.Sound (Run.program known fuel p) .start fun _ _ => True := by
  have hctx := Run.composed_tabled.context known fuel
  have hitems : ∀ items ⊆ p.items, ∀ m : Machine, m.structs.Fits →
      Run.Sound (items.forM (Run.item ⟨known, Run.call known fuel⟩)) m
        fun _ t => t.structs.Fits := by
    intro items hsub m hm
    induction items generalizing m with
    | nil => exact Run.sound_pure hm
    | cons i rest ih =>
      obtain ⟨hi, hrest⟩ := List.cons_subset.mp hsub
      refine Run.Sound.bind ?_ fun _ t ht => ih hrest t ht
      cases i with
      | struct name fields => exact Run.sound_structDecl hctx hm (h name fields hi)
      | _ =>
        refine (hctx.item Run.composed_tabled.defines _ ?_ (fun _ _ _ _ _ _ => trivial) m
          hm).imp fun _ _ _ ht => ht ▸ hm
        rintro name fields ⟨⟩
  refine (hitems p.items (List.Subset.refl _) .start StructTable.fits_empty).bind fun _ m hm => ?_
  exact (hctx.main p.pos? m hm).imp fun _ _ _ _ => trivial

/-- The structs of a program that the analysis accepts have distinct fields. -/
theorem fieldsDistinct_of_check {p : Program} (h : p.check.1 = .ok ()) : p.FieldsDistinct := by
  intro name fields hmem
  obtain ⟨a, b, hitem⟩ := Check.exists_exec_item h _ hmem
  exact Check.nodup_of_structDecl hitem

/-- The run of a program whose structs have distinct fields is not stopped for bad bounds. -/
theorem run_ne_badBounds {p : Program} (h : p.FieldsDistinct) (known : Nat → Option CType)
    (fuel : Nat) : (p.run known fuel).1 ≠ .error .badBounds := by
  have hsound := sound_program h known fuel
  unfold Run.Sound at hsound
  unfold run
  cases hexec : (Run.program known fuel p).exec .start with
  | ok a t => exact nofun
  | error stop t =>
    rw [hexec] at hsound
    rintro ⟨⟩
    exact hsound rfl

end Program

end MiniC
