import Mathlib.Data.List.Find
import Mathlib.Logic.Relation
import MiniC.Proofs.Fields
import MiniC.Proofs.Types

set_option autoImplicit false

/-! # Structs that contain structs

A value of a struct type has values of other struct types in it: in its fields, and in the elements
of those fields that are arrays. A struct table is layered if whatever is contained in a struct was
declared before it. Then containment is acyclic, and what is built by following it comes to an
end. -/

namespace MiniC

/-- The type of the values that a field is made of: its own, or that of the elements if it is an
array. -/
def Field.part? (f : Field) : Option CType :=
  match f.bounds with
  | none => some f.type
  | some dims => f.type.element? dims.length

namespace CType

theorem isStruct_of_struct? {t : CType} {tag : String} {decl : Nat}
    (h : t.struct? = some (tag, decl)) (hpointer : t.isPointer = false) : t.isStruct := by
  rw [isPointer, Bool.not_eq_false'] at hpointer
  rw [isStruct, hpointer, h]
  rfl

theorem exists_struct?_of_isStruct {t : CType} (h : t.isStruct) :
    ∃ tag decl, t.struct? = some (tag, decl) := by
  rw [isStruct, Bool.and_eq_true] at h
  obtain ⟨⟨tag, decl⟩, htag⟩ := Option.isSome_iff_exists.mp h.2
  exact ⟨tag, decl, htag⟩

end CType

namespace StructTable

variable {table : StructTable}

/-! ## Tags -/

/-- The tags of the declared structs in order. -/
def tags (table : StructTable) : List String :=
  table.decls.toList.map (·.tag)

theorem tags_declare (table : StructTable) (tag : String) :
    (table.declare tag).2.tags = table.tags ++ [tag] := by
  simp [tags, StructTable.declare]

theorem tags_addField (table : StructTable) (decl : Nat) (f : Field) :
    (table.addField decl f).tags = table.tags := by
  refine List.ext_getElem? fun i => ?_
  simp only [tags, addField, List.getElem?_map, Array.getElem?_toList, Array.getElem?_modify]
  split
  · cases table.decls[i]? with
    | none => rfl
    | some s =>
      simp only [Option.map_some, StructDecl.addField]
      split <;> rfl
  · rfl

theorem size_decls (table : StructTable) : table.decls.size = table.tags.length := by
  simp [tags]

/-- A tag stands for the declaration with the largest number among those that have it. -/
theorem find?_eq (table : StructTable) (tag : String) :
    table.find? tag =
      (List.range table.tags.length).reverse.find? fun i => table.tags[i]? = some tag := by
  unfold find?
  rw [size_decls]
  congr 1
  funext i
  simp only [tags, List.getElem?_map, Array.getElem?_toList]
  cases table.decls[i]? <;> simp

theorem find?_congr {table' : StructTable} (h : table'.tags = table.tags) :
    table'.find? = table.find? := by
  funext tag
  rw [find?_eq, find?_eq, h]

theorem find?_addField (table : StructTable) (decl : Nat) (f : Field) :
    (table.addField decl f).find? = table.find? :=
  find?_congr (table.tags_addField decl f)

theorem tag_of_find? {tag : String} {decl : Nat} (h : table.find? tag = some decl) :
    table.tags[decl]? = some tag := by
  rw [find?_eq] at h
  simpa using List.find?_some h

theorem lt_of_find? {tag : String} {decl : Nat} (h : table.find? tag = some decl) :
    decl < table.decls.size := by
  rw [size_decls]
  exact (List.getElem?_eq_some_iff.mp (tag_of_find? h)).1

theorem find?_eq_none_iff {tag : String} : table.find? tag = none ↔ tag ∉ table.tags := by
  rw [find?_eq, List.find?_eq_none, List.mem_iff_getElem?]
  simp only [List.mem_reverse, List.mem_range, decide_eq_true_eq, not_exists]
  refine ⟨fun h i hi => h i (List.getElem?_eq_some_iff.mp hi).1 hi, fun h i _ => h i⟩

/-- The latest declaration of a tag is the new one, and other tags keep theirs. -/
theorem find?_declare (table : StructTable) (tag tag' : String) :
    (table.declare tag').2.find? tag =
      if tag = tag' then some table.decls.size else table.find? tag := by
  rw [find?_eq, tags_declare, List.length_append, List.length_singleton, List.range_succ,
    List.reverse_append, List.reverse_singleton, List.singleton_append, List.find?_cons,
    List.getElem?_concat_length, size_decls]
  by_cases htag : tag = tag'
  · simp [htag]
  · have hne : (some tag' = some tag) = False := by simpa using Ne.symm htag
    simp only [hne, decide_false, if_neg htag, find?_eq]
    refine List.find?_congr fun i hi => ?_
    rw [List.getElem?_append_left (List.mem_range.mp (List.mem_reverse.mp hi))]

/-! ## Layers -/

/-- Whether the values of the struct with one number have values of the struct with another number
in a field or in the elements of a field. -/
def Contains (table : StructTable) (outer inner : Nat) : Prop :=
  ∃ s, table.decls[outer]? = some s ∧ ∃ f ∈ s.fields, ∃ t, f.part? = some t ∧ t.isStruct ∧
    ∃ tag, t.struct? = some (tag, inner)

/-- Whether a type, if it is that of a struct, is that of the latest declaration of its tag, which
has a number below `bound`. -/
def Below (table : StructTable) (bound : Nat) (t : CType) : Prop :=
  t.isStruct → ∃ tag decl, t.struct? = some (tag, decl) ∧ table.find? tag = some decl ∧ decl < bound

/-- Whether each struct was declared after the structs that it contains. -/
def Layered (table : StructTable) : Prop :=
  ∀ decl s, table.decls[decl]? = some s → ∀ f ∈ s.fields, ∀ t, f.part? = some t →
    table.Below decl t

theorem Below.mono {bound bound' : Nat} {t : CType} (h : table.Below bound t)
    (hle : bound ≤ bound') : table.Below bound' t := by
  intro ht
  obtain ⟨tag, decl, htag, hdecl, hlt⟩ := h ht
  exact ⟨tag, decl, htag, hdecl, Nat.lt_of_lt_of_le hlt hle⟩

theorem Below.congr {table' : StructTable} {bound : Nat} {t : CType} (h : table.Below bound t)
    (htable : ∀ tag decl, table.find? tag = some decl → table'.find? tag = some decl) :
    table'.Below bound t := by
  intro ht
  obtain ⟨tag, decl, htag, hdecl, hlt⟩ := h ht
  exact ⟨tag, decl, htag, htable tag decl hdecl, hlt⟩

/-- A type that words stand for is below the number of declarations. -/
theorem below_of_find? {t : CType}
    (h : ∀ tag decl, t.struct? = some (tag, decl) → table.find? tag = some decl) :
    table.Below table.decls.size t := by
  intro ht
  obtain ⟨tag, decl, htag⟩ := CType.exists_struct?_of_isStruct ht
  exact ⟨tag, decl, htag, h tag decl htag, lt_of_find? (h tag decl htag)⟩

theorem layered_empty : empty.Layered :=
  fun decl s hs => by simp [empty] at hs

theorem Layered.declare (h : table.Layered) {tag : String} (htag : table.find? tag = none) :
    (table.declare tag).2.Layered := by
  intro decl s hs f hf t ht
  change (table.decls.push ⟨tag, []⟩)[decl]? = some s at hs
  rw [Array.getElem?_push] at hs
  split at hs
  · cases hs
    cases hf
  · refine (h decl s hs f hf t ht).congr fun tag' decl' hfind => ?_
    rw [find?_declare, if_neg]
    · exact hfind
    · rintro rfl
      rw [htag] at hfind
      cases hfind

/-- A field is added to a struct if what the field is made of is below the struct. As for the
bounds, a field that has none must be new. -/
theorem Layered.addField (h : table.Layered) {decl : Nat} {new : Field}
    (hnew : ∀ t, new.part? = some t → table.Below decl t)
    (hbounds : new.bounds = none → new.name ∉ table.namesAt decl) :
    (table.addField decl new).Layered := by
  intro decl' s hs f hf t ht
  have hkept : table.Below decl' t := by
    change (table.decls.modify decl (·.addField new))[decl']? = some s at hs
    rw [Array.getElem?_modify] at hs
    split at hs
    · rename_i heq
      obtain rfl : decl = decl' := heq
      obtain ⟨old, hold, rfl⟩ := Option.map_eq_some_iff.mp hs
      rcases StructDecl.mem_addField (by simpa [namesAt, hold] using hbounds) hf with hf | rfl
      · exact h decl old hold f hf t ht
      · exact hnew t ht
    · exact h decl' s hs f hf t ht
  refine hkept.congr fun tag i hi => ?_
  rw [find?_addField]
  exact hi

/-- Whether the bounds of all fields fit, and each struct was declared after those that it
contains. -/
structure Regular (table : StructTable) : Prop where
  fits : table.Fits
  layered : table.Layered

theorem regular_empty : empty.Regular :=
  ⟨fits_empty, layered_empty⟩

theorem Regular.declare (h : table.Regular) {tag : String} (htag : table.find? tag = none) :
    (table.declare tag).2.Regular :=
  ⟨h.fits.declare tag, h.layered.declare htag⟩

/-- A field is added whose type has a pointer level for each dimension, and whose bounds, if it gets
them, are as many. -/
theorem Regular.addField (h : table.Regular) {decl n : Nat} {name : String} {base : CType}
    {bounds : Option (List Nat)} (hbase : table.Below decl base)
    (hlength : ∀ dims, bounds = some dims → dims.length = n)
    (hbounds : bounds = none → name ∉ table.namesAt decl) :
    (table.addField decl ⟨name, base.pointers n, bounds⟩).Regular := by
  refine ⟨h.fits.addField (fun dims hdims => ?_) hbounds, h.layered.addField (fun t ht => ?_) hbounds⟩
  · rw [hlength dims hdims, CType.element?_pointers]
    rfl
  · cases bounds with
    | none =>
      cases ht
      intro hstruct
      obtain rfl : n = 0 := by
        by_contra hn
        rw [CType.isStruct_of_isPointer (CType.isPointer_pointers base hn)] at hstruct
        cases hstruct
      exact hbase hstruct
    | some dims =>
      rw [Field.part?] at ht
      dsimp only at ht
      rw [hlength dims rfl, CType.element?_pointers] at ht
      cases ht
      exact hbase

/-- In a layered table, each struct has a larger number than those that it contains. -/
theorem Layered.lt_of_contains (h : table.Layered) {outer inner : Nat}
    (hcontains : table.Contains outer inner) : inner < outer := by
  obtain ⟨s, hs, f, hf, t, ht, hstruct, tag, htag⟩ := hcontains
  obtain ⟨tag', decl, htag', -, hlt⟩ := h outer s hs f hf t ht hstruct
  rw [htag] at htag'
  cases htag'
  exact hlt

theorem Layered.acyclic (h : table.Layered) (decl : Nat) :
    ¬Relation.TransGen table.Contains decl decl := by
  have hdown : ∀ outer inner, Relation.TransGen table.Contains outer inner → inner < outer := by
    intro outer inner hpath
    induction hpath with
    | single hstep => exact h.lt_of_contains hstep
    | tail _ hstep ih => exact Nat.lt_trans (h.lt_of_contains hstep) ih
  exact fun hcycle => Nat.lt_irrefl decl (hdown decl decl hcycle)

/-! ## Sizes -/

/-- The fields of a struct by its own declaration are those by the latest one of its tag. -/
theorem Below.currentFields_eq {bound : Nat} {t : CType} (h : table.Below bound t)
    (ht : t.isStruct) : table.currentFields t = table.fieldsOf t := by
  obtain ⟨tag, decl, htag, hfind, -⟩ := h ht
  have hlatest : t.tag?.bind table.latest? = table.decls[decl]? := by
    rw [CType.tag?, htag, Option.map_some, Option.bind_some, latest?, hfind, Option.bind_some]
  cases hdecl : table.decls[decl]? with
  | none => simp only [currentFields, fieldsOf, hlatest, htag, hdecl]
  | some s => simp only [currentFields, fieldsOf, hlatest, htag, hdecl]

theorem Layered.below_of_fieldsOf (h : table.Layered) {bound : Nat} {t : CType}
    (ht : table.Below (bound + 1) t) (hstruct : t.isStruct) {f : Field}
    (hf : f ∈ table.fieldsOf t) {part : CType} (hpart : f.part? = some part) :
    table.Below bound part := by
  obtain ⟨tag, decl, htag, -, hlt⟩ := ht hstruct
  simp only [fieldsOf, htag] at hf
  cases hs : table.decls[decl]? with
  | none =>
    rw [hs] at hf
    cases hf
  | some s =>
    rw [hs] at hf
    exact (h decl s hs f hf part hpart).mono (Nat.le_of_lt_succ hlt)

/-- Of a type below a bound, no more structs than that are nested in one another. By induction on
the bound. -/
theorem Layered.sizeWithin_ne (h : table.Layered) {bound : Nat} {t : CType}
    (ht : table.Below bound t) : table.sizeWithin bound t ≠ .error .endless := by
  induction bound generalizing t with
  | zero =>
    unfold sizeWithin
    split
    · rintro ⟨⟩
    · split
      · rename_i hpointer hsome
        obtain ⟨⟨tag, decl⟩, htag⟩ := Option.isSome_iff_exists.mp hsome
        have hstruct := CType.isStruct_of_struct? htag (Bool.not_eq_true _ ▸ hpointer)
        obtain ⟨_, _, -, -, hlt⟩ := ht hstruct
        exact absurd hlt (Nat.not_lt_zero _)
      · rintro ⟨⟩
  | succ bound ih =>
    unfold sizeWithin
    split
    · rintro ⟨⟩
    · split
      · rename_i hpointer hsome
        obtain ⟨⟨tag, decl⟩, htag⟩ := Option.isSome_iff_exists.mp hsome
        have hstruct := CType.isStruct_of_struct? htag (Bool.not_eq_true _ ▸ hpointer)
        refine foldlM_ne_error (fun total f hf => ?_) 0
        -- The parts of a struct are below the smaller bound, so the induction is about them.
        have hparts : ∀ part, f.part? = some part → table.sizeWithin bound part ≠ .error .endless :=
          fun part hpart => ih (h.below_of_fieldsOf ht hstruct hf hpart)
        cases hbounds : f.bounds with
        | none =>
          have hpart := hparts f.type (by rw [Field.part?, hbounds])
          simp only
          cases hsize : table.sizeWithin bound f.type with
          | ok n => rintro ⟨⟩
          | error e =>
            rintro ⟨⟩
            exact hpart hsize
        | some dims =>
          simp only
          cases helem : f.type.element? dims.length with
          | none => rintro ⟨⟩
          | some elem =>
            have hpart := hparts elem (by rw [Field.part?, hbounds, ← helem])
            simp only
            cases hsize : table.sizeWithin bound elem with
            | ok n => rintro ⟨⟩
            | error e =>
              rintro ⟨⟩
              exact hpart hsize
      · rintro ⟨⟩

/-- In a layered table whose bounds fit, each type below its size has a size. -/
theorem Layered.exists_sizeOf (h : table.Layered) (hfits : table.Fits) {t : CType}
    (ht : table.Below table.decls.size t) : ∃ n, table.sizeOf t = .ok n := by
  cases hsize : table.sizeOf t with
  | ok n => exact ⟨n, rfl⟩
  | error e =>
    obtain rfl := hfits.sizeOf_eq_endless hsize
    exact absurd hsize (h.sizeWithin_ne ht)

end StructTable

end MiniC
