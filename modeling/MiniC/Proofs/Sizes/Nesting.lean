import Mathlib.Data.List.Perm.Subperm
import MiniC.Proofs.Containment.Layers

set_option autoImplicit false

/-! # How deep structs are nested

Where no struct contains itself, no more structs are nested in one another than there are: along a
path from struct to struct, no struct comes twice. This holds in whatever order the structs were
declared. -/

namespace MiniC

/-- Whether locations of a type have values of the size of the type: the type is a pointer, or its
base is none of `void`, `auto` and `long double`. -/
def CType.Storable (t : CType) : Prop :=
  t.isPointer ∨ (t.base ≠ .void ∧ t.base ≠ .auto ∧ t.base ≠ .longDouble)

instance : DecidablePred CType.Storable :=
  fun t => by unfold CType.Storable; infer_instance

/-- The dimensions of a field; a field that is no array has none. -/
def Field.dims (f : Field) : List Nat :=
  f.bounds.getD []

namespace StructTable

variable {table : StructTable}

/-- Whether a field of a struct has values of the size of its type: an array has dimensions, and
what the field is made of is storable and, if it is a struct, one that its tag stands for. -/
structure Lays (table : StructTable) (f : Field) : Prop where
  bounds : f.bounds ≠ some []
  part : ∃ part, f.part? = some part ∧ part.Storable ∧ table.Below table.decls.size part

/-- Whether the structs that the tags of a table stand for can be laid out: each has its fields
under different names, their bounds fit, their types are storable and of structs of the table, and
no struct contains itself. -/
structure LaidOut (table : StructTable) : Prop where
  names : ∀ tag s, table.latest? tag = some s → s.names.Nodup
  fields : ∀ tag s, table.latest? tag = some s → ∀ f ∈ s.fields, table.Lays f
  acyclic : ∀ tag decl, table.find? tag = some decl →
    ¬Relation.TransGen table.Contains decl decl

/-- Whether structs are nested at most `depth` deep in the values of a type. -/
def Nests (table : StructTable) : Nat → CType → Prop
  | 0, t => ¬t.isStruct
  | depth + 1, t => t.isStruct → ∀ f ∈ table.fieldsOf t, ∀ part, f.part? = some part →
    table.Nests depth part

/-- The declaration of a struct that its tag stands for. -/
theorem Below.latest?_eq {bound : Nat} {t : CType} (h : table.Below bound t) (ht : t.isStruct) :
    ∃ tag decl s, t.struct? = some (tag, decl) ∧ table.find? tag = some decl ∧
      table.decls[decl]? = some s ∧ table.latest? tag = some s ∧ table.fieldsOf t = s.fields ∧
      decl < bound := by
  obtain ⟨tag, decl, htag, hfind, hlt⟩ := h ht
  have hdecl := Array.getElem?_eq_getElem (lt_of_find? hfind)
  refine ⟨tag, decl, _, htag, hfind, hdecl, ?_, ?_, hlt⟩
  · rw [latest?, hfind, Option.bind_some, hdecl]
  · simp only [fieldsOf, htag, hdecl]

/-- What a field of a laid out table is made of. -/
theorem LaidOut.lays (h : table.LaidOut) {bound : Nat} {t : CType}
    (ht : table.Below bound t) (hstruct : t.isStruct) {f : Field} (hf : f ∈ table.fieldsOf t) :
    table.Lays f := by
  obtain ⟨tag, decl, s, -, -, -, hlatest, hfields, -⟩ := ht.latest?_eq hstruct
  exact h.fields tag s hlatest f (hfields ▸ hf)

/-- Different structs that all contain a type, if it is that of a struct. -/
structure IsPath (table : StructTable) (path : List Nat) (t : CType) : Prop where
  nodup : path.Nodup
  lt : ∀ decl ∈ path, decl < table.decls.size
  contains : t.isStruct → ∀ tag decl, t.struct? = some (tag, decl) →
    ∀ outer ∈ path, Relation.TransGen table.Contains outer decl

/-- A path to a struct is continued by the struct itself. -/
theorem LaidOut.isPath_cons (h : table.LaidOut) {path : List Nat} {t part : CType}
    (hpath : table.IsPath path t) (hstruct : t.isStruct) {tag : String} {decl : Nat}
    (htag : t.struct? = some (tag, decl)) (hfind : table.find? tag = some decl)
    (hpart : part.isStruct → ∀ tag inner, part.struct? = some (tag, inner) →
      table.Contains decl inner) : table.IsPath (decl :: path) part where
  nodup := List.nodup_cons.mpr
    ⟨fun hmem => h.acyclic tag decl hfind (hpath.contains hstruct tag decl htag decl hmem),
      hpath.nodup⟩
  lt := List.forall_mem_cons.mpr ⟨lt_of_find? hfind, hpath.lt⟩
  contains hstruct' tag' inner hinner := by
    have hlast := hpart hstruct' tag' inner hinner
    exact List.forall_mem_cons.mpr ⟨.single hlast, fun outer hmem =>
      (hpath.contains hstruct tag decl htag outer hmem).tail hlast⟩

theorem IsPath.length_le {path : List Nat} {t : CType} (h : table.IsPath path t) :
    path.length ≤ table.decls.size := by
  have hsub : path ⊆ List.range table.decls.size := fun d hd => List.mem_range.mpr (h.lt d hd)
  simpa using (List.subperm_of_subset h.nodup hsub).length_le

/-- Along a path no struct comes twice, so that the path has an end. By induction on the number of
structs that are not on the path. -/
theorem LaidOut.nests_of_path (h : table.LaidOut) {depth : Nat} {path : List Nat} {t : CType}
    (hpath : table.IsPath path t) (hdepth : path.length + depth = table.decls.size)
    (ht : table.Below table.decls.size t) : table.Nests depth t := by
  induction depth generalizing path t with
  | zero =>
    intro hstruct
    obtain ⟨tag, decl, -, htag, hfind, -⟩ := ht.latest?_eq hstruct
    have hlonger : table.IsPath (decl :: path) .int :=
      h.isPath_cons hpath hstruct htag hfind nofun
    exact absurd hlonger.length_le (by rw [List.length_cons]; omega)
  | succ depth ih =>
    intro hstruct f hf part hpart
    obtain ⟨tag, decl, s, htag, hfind, hdecl, -, hfields, -⟩ := ht.latest?_eq hstruct
    obtain ⟨part', hpart', -, hbelow⟩ := (h.lays ht hstruct hf).part
    obtain rfl := Option.some.inj (hpart.symm.trans hpart')
    refine ih (h.isPath_cons hpath hstruct htag hfind fun hinner tag' inner htag' => ?_)
      (by rw [List.length_cons]; omega) hbelow
    exact ⟨s, hdecl, f, hfields ▸ hf, part, hpart, hinner, tag', htag'⟩

/-- No more structs are nested in one another than there are. -/
theorem LaidOut.nests (h : table.LaidOut) {t : CType} (ht : table.Below table.decls.size t) :
    table.Nests table.decls.size t :=
  h.nests_of_path ⟨.nil, List.forall_mem_nil _, fun _ _ _ _ => List.forall_mem_nil _⟩
    (Nat.zero_add _) ht

/-- A table in which structs are declared after those that they contain can be laid out if all its
fields can. -/
theorem Layered.laidOut (h : table.Layered) (hnames : ∀ s ∈ table.decls, s.names.Nodup)
    (hfields : ∀ s ∈ table.decls, ∀ f ∈ s.fields, f.bounds ≠ some [] ∧
      ∃ part, f.part? = some part ∧ part.Storable) : table.LaidOut where
  names tag s hs := by
    obtain ⟨decl, -, hdecl⟩ := Option.bind_eq_some_iff.mp hs
    exact hnames s (Array.mem_of_getElem? hdecl)
  fields tag s hs f hf := by
    obtain ⟨decl, hfind, hdecl⟩ := Option.bind_eq_some_iff.mp hs
    obtain ⟨hbounds, part, hpart, hstorable⟩ := hfields s (Array.mem_of_getElem? hdecl) f hf
    refine ⟨hbounds, part, hpart, hstorable, ?_⟩
    exact (h decl s hdecl f hf part hpart).mono (Nat.le_of_lt (lt_of_find? hfind))
  acyclic _ decl _ := h.acyclic decl

end StructTable

end MiniC
