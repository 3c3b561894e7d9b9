import MiniC.Run.Values

set_option autoImplicit false

/-! # Fields and their bounds

The type of a field that is an array has one pointer level for each of its bounds. That is so for
every field that its struct declares once; a field that is declared again as something else keeps
the bounds that it had. -/

namespace MiniC

namespace CType

theorem element?_pointers (t : CType) (n : Nat) : (t.pointers n).element? n = some t := by
  induction n with
  | zero => rfl
  | succ n ih => exact ih

end CType

/-- Whether the type of a field has a pointer level for each bound of the field. -/
def Field.Fits (f : Field) : Prop :=
  ∀ bounds, f.bounds = some bounds → (f.type.element? bounds.length).isSome

namespace StructDecl

/-- Whether the bounds of all fields fit. -/
def Fits (s : StructDecl) : Prop :=
  ∀ f ∈ s.fields, f.Fits

/-- The names of the fields. -/
def names (s : StructDecl) : List String :=
  s.fields.map (·.name)

theorem field?_eq_none_iff {s : StructDecl} {name : String} :
    s.field? name = none ↔ name ∉ s.names := by
  simp [field?, names]

/-- A field of the struct with a new one is an old one or the new one, which must not be left without
bounds where there is one of its name. -/
theorem mem_addField {s : StructDecl} {new f : Field}
    (hbounds : new.bounds = none → new.name ∉ s.names) (hf : f ∈ (s.addField new).fields) :
    f ∈ s.fields ∨ f = new := by
  unfold StructDecl.addField at hf
  split at hf
  · exact (List.mem_append.mp hf).imp_right List.mem_singleton.mp
  next old hold =>
    have hsome : ∃ bounds, new.bounds = some bounds := by
      refine Option.ne_none_iff_exists'.mp fun hnone => ?_
      rw [field?_eq_none_iff.mpr (hbounds hnone)] at hold
      cases hold
    obtain ⟨bounds, hsome⟩ := hsome
    obtain ⟨g, hg, rfl⟩ := List.mem_map.mp hf
    split
    · have hsame : (new.bounds <|> old.bounds) = new.bounds := by
        rw [hsome]
        rfl
      exact .inr (by rw [hsame])
    · exact .inl hg

/-- A field that has no bounds is new, or takes the place of one that has none either. -/
theorem Fits.addField {s : StructDecl} (hs : s.Fits) {new : Field} (hnew : new.Fits)
    (hbounds : new.bounds = none → new.name ∉ s.names) : (s.addField new).Fits := by
  intro f hf
  rcases mem_addField hbounds hf with hf | rfl
  · exact hs f hf
  · exact hnew

theorem names_addField (s : StructDecl) (new : Field) :
    (s.addField new).names = if new.name ∈ s.names then s.names else s.names ++ [new.name] := by
  unfold StructDecl.addField
  split
  next hnone =>
    rw [if_neg (field?_eq_none_iff.mp hnone)]
    simp [names]
  next old hold =>
    have hmem : new.name ∈ s.names := by
      refine Decidable.byContradiction fun hmem => ?_
      rw [field?_eq_none_iff.mpr hmem] at hold
      cases hold
    rw [if_pos hmem]
    simp only [names, List.map_map]
    refine List.map_congr_left fun f _ => ?_
    by_cases hname : f.name = new.name
    · simp [hname]
    · simp [hname]

end StructDecl

namespace StructTable

/-- Whether the bounds of all fields of all structs fit. -/
def Fits (table : StructTable) : Prop :=
  ∀ s ∈ table.decls, s.Fits

theorem fits_empty : empty.Fits :=
  fun s hs => by simp [empty] at hs

/-- The names of the fields of the struct declared under a number. -/
def namesAt (table : StructTable) (decl : Nat) : List String :=
  (table.decls[decl]?.map (·.names)).getD []

theorem namesAt_declare (table : StructTable) (tag : String) :
    (table.declare tag).2.namesAt (table.declare tag).1 = [] := by
  simp [namesAt, StructTable.declare, StructDecl.names]

theorem namesAt_addField (table : StructTable) (decl : Nat) (new : Field) :
    (table.addField decl new).namesAt decl ⊆ new.name :: table.namesAt decl := by
  unfold namesAt StructTable.addField
  rw [Array.getElem?_modify, if_pos rfl]
  cases table.decls[decl]? with
  | none => exact List.nil_subset _
  | some s =>
    simp only [Option.map_some, Option.getD_some]
    rw [StructDecl.names_addField]
    split
    · exact List.subset_cons_self _ _
    · intro name hname
      rcases List.mem_append.mp hname with hname | hname
      · exact List.mem_cons_of_mem _ hname
      · rw [List.mem_singleton.mp hname]
        exact List.mem_cons_self

theorem Fits.addField {table : StructTable} (h : table.Fits) {decl : Nat} {new : Field}
    (hnew : new.Fits) (hbounds : new.bounds = none → new.name ∉ table.namesAt decl) :
    (table.addField decl new).Fits := by
  intro s hs
  obtain ⟨i, hi⟩ := Array.mem_iff_getElem?.mp hs
  rw [StructTable.addField, Array.getElem?_modify] at hi
  split at hi
  next hdecl =>
    obtain ⟨old, hold, rfl⟩ := Option.map_eq_some_iff.mp hi
    refine (h old (Array.mem_of_getElem? hold)).addField hnew fun hnone => ?_
    have hfree := hbounds hnone
    rwa [namesAt, hdecl, hold] at hfree
  · exact h s (Array.mem_of_getElem? hi)

theorem Fits.declare {table : StructTable} (h : table.Fits) (tag : String) :
    (table.declare tag).2.Fits := by
  intro s hs
  rcases Array.mem_push.mp hs with hs | rfl
  · exact h s hs
  · exact fun f hf => by cases hf

theorem Fits.of_fieldsOf {table : StructTable} (h : table.Fits) {t : CType} {f : Field}
    (hf : f ∈ table.fieldsOf t) : f.Fits := by
  unfold fieldsOf at hf
  split at hf
  · cases hf
  · split at hf
    · cases hf
    next hs => exact h _ (Array.mem_of_getElem? hs) f hf

theorem Fits.of_currentFields {table : StructTable} (h : table.Fits) {t : CType} {f : Field}
    (hf : f ∈ table.currentFields t) : f.Fits := by
  unfold currentFields at hf
  split at hf
  · cases hf
  next s hs =>
    obtain ⟨tag, -, hlatest⟩ := Option.bind_eq_some_iff.mp hs
    obtain ⟨i, -, hi⟩ := Option.bind_eq_some_iff.mp hlatest
    exact h _ (Array.mem_of_getElem? hi) f hf

/-! ## Sizes -/

theorem foldlM_ne_error {ε α β : Type} {f : β → α → Except ε β} {e : ε} {l : List α}
    (hf : ∀ b, ∀ a ∈ l, f b a ≠ .error e) (b : β) : l.foldlM f b ≠ .error e := by
  induction l generalizing b with
  | nil => exact nofun
  | cons a l ih =>
    rw [List.foldlM_cons]
    cases hstep : f b a with
    | error e' =>
      rintro ⟨⟩
      exact hf b a List.mem_cons_self hstep
    | ok b' => exact ih (fun b a ha => hf b a (List.mem_cons_of_mem _ ha)) b'

theorem Fits.sizeWithin_ne {table : StructTable} (h : table.Fits) (depth : Nat) (t : CType) :
    table.sizeWithin depth t ≠ .error .badBounds := by
  induction depth generalizing t with
  | zero =>
    unfold sizeWithin
    split
    · exact nofun
    · split <;> exact nofun
  | succ depth ih =>
    unfold sizeWithin
    split
    · exact nofun
    · split
      · refine foldlM_ne_error (fun total f hf => ?_) 0
        cases hbounds : f.bounds with
        | none =>
          cases hsize : table.sizeWithin depth f.type with
          | ok n => exact nofun
          | error e =>
            rintro ⟨⟩
            exact ih _ hsize
        | some bounds =>
          obtain ⟨elem, helem⟩ := Option.isSome_iff_exists.mp (h.of_fieldsOf hf bounds hbounds)
          simp only [helem]
          cases hsize : table.sizeWithin depth elem with
          | ok n => exact nofun
          | error e =>
            rintro ⟨⟩
            exact ih _ hsize
      · exact nofun

theorem Fits.sizeOf_eq_endless {table : StructTable} (h : table.Fits) {t : CType} {e : SizeError}
    (he : table.sizeOf t = .error e) : e = .endless := by
  cases e with
  | endless => rfl
  | badBounds => exact absurd he (h.sizeWithin_ne _ t)

end StructTable

end MiniC
