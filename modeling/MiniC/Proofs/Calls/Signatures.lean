import Mathlib.Data.List.Forall2
import MiniC.Proofs.Covered
import MiniC.Proofs.Names.Checked
import MiniC.Proofs.Types

set_option autoImplicit false

/-! # The functions that the analysis knows

A function may be declared any number of times, each time with the same types, and the analysis
keeps one entry for it. So whichever declaration stands behind the entry that a call was checked
against, the parameters of all of them have the types of that entry. -/

namespace MiniC

/-! ## The types of parameters -/

/-- Whether a type is what a declarator declares, up to the declarations of structs. -/
def Declarator.HasType (d : Declarator) (t : CType) : Prop :=
  ∃ find? base, CType.ofWords find? d.type.words = .ok base ∧
    t = (base.pointers d.dims.length).undeclared

/-- A declarator declares one type only. -/
theorem Declarator.hasType_unique {d : Declarator} {t t' : CType} (h : d.HasType t)
    (h' : d.HasType t') : t = t' := by
  obtain ⟨find?, base, hwords, rfl⟩ := h
  obtain ⟨find?', base', hwords', rfl⟩ := h'
  rw [CType.undeclared_pointers, CType.undeclared_pointers,
    CType.undeclared_eq_of_ofWords hwords hwords']

/-- The types of the parameters of a function, up to the declarations of structs. -/
def Signature.types (f : Signature) : List CType :=
  f.params.map fun v => v.type.undeclared

/-- Whether a function has the parameters that a piece of a program declares. -/
def FunctionHead.Fits (head : FunctionHead) (f : Signature) : Prop :=
  List.Forall₂ Declarator.HasType head.params f.types

/-- Functions with the parameters of one piece of a program have the same types of parameters. -/
theorem FunctionHead.Fits.types_eq {head : FunctionHead} {f f' : Signature} (h : head.Fits f)
    (h' : head.Fits f') : f.types = f'.types :=
  List.right_unique_forall₂' (R := Declarator.HasType)
    (fun _ _ _ ht ht' => Declarator.hasType_unique ht ht') h h'

/-! ## What becomes of the functions in a scope -/

namespace Analysis

/-- Whether a state has the current scope of an earlier one, and the functions in each scope of the
earlier one are still there with their types. -/
structure Later (a a' : Analysis) : Prop where
  current : a'.current = a.current
  scopes : ∀ (i : Nat) (s : StaticScope), a.scopes[i]? = some s → ∃ s', a'.scopes[i]? = some s' ∧
    s'.parent = s.parent ∧ ∀ id f, s.names.lookup id = some (.function f) →
      ∃ f', s'.names.lookup id = some (.function f') ∧ f'.types = f.types

variable {a a' a'' : Analysis}

theorem Later.of_scopes (hscopes : a'.scopes = a.scopes) (hcurrent : a'.current = a.current) :
    a.Later a' where
  current := hcurrent
  scopes _ s hs := ⟨s, hscopes ▸ hs, rfl, fun _ f hf => ⟨f, hf, rfl⟩⟩

theorem Later.trans (h : a.Later a') (h' : a'.Later a'') : a.Later a'' where
  current := h'.current.trans h.current
  scopes i s hs := by
    obtain ⟨s', hs', hparent, hfunctions⟩ := h.scopes i s hs
    obtain ⟨s'', hs'', hparent', hfunctions'⟩ := h'.scopes i s' hs'
    refine ⟨s'', hs'', hparent'.trans hparent, fun id f hf => ?_⟩
    obtain ⟨f', hf', htypes⟩ := hfunctions id f hf
    obtain ⟨f'', hf'', htypes'⟩ := hfunctions' id f' hf'
    exact ⟨f'', hf'', htypes'.trans htypes⟩

/-- A change of one scope that keeps its parent and its functions with their types. -/
theorem Later.modify (i : Nat) {f : StaticScope → StaticScope}
    (hf : ∀ s, a.scopes[i]? = some s → (f s).parent = s.parent ∧
      ∀ id g, s.names.lookup id = some (.function g) →
        ∃ g', (f s).names.lookup id = some (.function g') ∧ g'.types = g.types) :
    a.Later { a with scopes := a.scopes.modify i f } where
  current := rfl
  scopes j s hs := by
    rw [Array.getElem?_modify, hs]
    split
    · rename_i heq
      subst heq
      exact ⟨f s, rfl, hf s hs⟩
    · exact ⟨s, rfl, rfl, fun _ g hg => ⟨g, hg, rfl⟩⟩

/-- A function of the current scope is there later with its types. -/
theorem Later.lookupHere (h : a.Later a') {id : Nat} {f : Signature}
    (hf : a.lookupHere id = some (.function f)) :
    ∃ f', a'.lookupHere id = some (.function f') ∧ f'.types = f.types := by
  simp only [Analysis.lookupHere, Option.bind_eq_some_iff] at hf
  obtain ⟨s, ⟨i, hi, hs⟩, hf⟩ := hf
  obtain ⟨s', hs', -, hfunctions⟩ := h.scopes i s hs
  obtain ⟨f', hf', htypes⟩ := hfunctions id f hf
  refine ⟨f', ?_, htypes⟩
  rw [Analysis.lookupHere, h.current, hi, Option.bind_some, hs', Option.bind_some, hf']

/-- Whether the current scope is one that was opened. -/
def IsOpen (a : Analysis) : Prop :=
  ∃ i s, a.current = some i ∧ a.scopes[i]? = some s

theorem Later.isOpen (h : a.Later a') (ha : a.IsOpen) : a'.IsOpen := by
  obtain ⟨i, s, hi, hs⟩ := ha
  obtain ⟨s', hs', -⟩ := h.scopes i s hs
  exact ⟨i, s', h.current.trans hi, hs'⟩

/-- A name that is given a meaning in the current scope has it there. -/
theorem lookupHere_put {i : Nat} {s : StaticScope} (hi : a.current = some i)
    (hs : a.scopes[i]? = some s) (id : Nat) (e : Entity) :
    lookupHere { a with scopes := a.scopes.modify i (·.put id e) } id = some e := by
  have hscope : (a.scopes.modify i (·.put id e))[i]? = some (s.put id e) := by
    rw [Array.getElem?_modify, if_pos rfl, hs]
    rfl
  rw [lookupHere, hi, Option.bind_some]
  dsimp only
  rw [hscope, Option.bind_some, StaticScope.lookup_put, if_pos rfl]

/-- The scopes around a place are among those that were opened. -/
theorem exists_of_mem_outwardsFrom {scopes : Array StaticScope} {i : Nat} {s : StaticScope}
    (h : s ∈ outwardsFrom scopes i) : ∃ j : Nat, scopes[j]? = some s := by
  induction i using Nat.strongRecOn with
  | ind i ih =>
    rw [outwardsFrom] at h
    cases hs : scopes[i]? with
    | none =>
      rw [hs] at h
      cases h
    | some scope =>
      rw [hs] at h
      rcases List.mem_cons.mp h with rfl | h
      · exact ⟨i, hs⟩
      · split at h
        · cases h
        · split at h
          · exact ih _ ‹_› h
          · cases h

/-- A name with a meaning has it in one of the scopes. -/
theorem exists_of_lookup {id : Nat} {e : Entity} (h : a.lookup id = some e) :
    ∃ (i : Nat) (s : StaticScope), a.scopes[i]? = some s ∧ s.names.lookup id = some e := by
  obtain ⟨s, hs, he⟩ := List.exists_of_findSome?_eq_some h
  unfold outwards at hs
  split at hs
  · cases hs
  · obtain ⟨i, hi⟩ := exists_of_mem_outwardsFrom hs
    exact ⟨i, s, hi, he⟩

end Analysis

namespace Check

open Traced

variable {α β : Type} {l : List Occurrence}

/-- Whether a step of the analysis that goes through ends in a later state. -/
def Advances (x : Check α) : Prop :=
  ∀ a r a', x.exec a = .ok r a' → a.Later a'

theorem Advances.bind {x : Check α} {f : α → Check β} (hx : Advances x)
    (hf : ∀ r, Advances (f r)) : Advances (x >>= f) := by
  intro a r a' h
  obtain ⟨b, t, hb, hr, -⟩ := exec_bind_eq_ok h
  exact (hx a b t hb).trans (hf b t r a' hr)

theorem Steady.advances {x : Check α} (hx : Steady x) : Advances x := by
  intro a r a' h
  obtain ⟨hscopes, hcurrent⟩ := hx.still (fun _ => True) a r a' h fun _ _ _ _ => trivial
  exact .of_scopes hscopes hcurrent

theorem advances_closed : Closed @Advances where
  pure r := (steady_pure r).advances
  bind := Advances.bind
  fail cause pos := (steady_fail cause pos).advances
  get := steady_get.advances

/-- A name gets a meaning in the current scope: a name of a variable or of no function there, or of
a function with the same types. -/
theorem later_of_put {id : Nat} {e : Entity} {a a' : Analysis} {r : Unit}
    (he : ∀ f, a.lookupHere id = some (.function f) → ∃ f', e = .function f' ∧ f'.types = f.types)
    (h : (put id e).exec a = .ok r a') : a.Later a' := by
  obtain ⟨_, _, hget, h, -⟩ := exec_bind_eq_ok h
  cases hget
  cases hcurrent : a.current with
  | none =>
    rw [hcurrent] at h
    cases h
    exact .of_scopes rfl rfl
  | some i =>
    rw [hcurrent] at h
    cases h
    refine .modify i fun s hs => ⟨s.parent_put id e, fun n f hf => ?_⟩
    rw [StaticScope.lookup_put]
    split
    · rename_i hn
      subst hn
      obtain ⟨f', rfl, htypes⟩ := he f (by
        rw [Analysis.lookupHere, hcurrent, Option.bind_some, hs, Option.bind_some, hf])
      exact ⟨f', rfl, htypes⟩
    · exact ⟨f, hf, rfl⟩

theorem advances_declare (v : Variable) : Advances (declare v) := by
  intro a r a' h
  obtain ⟨_, _, hget, h, -⟩ := exec_bind_eq_ok h
  cases hget
  cases hhere : a.lookupHere v.name.id with
  | some e =>
    rw [hhere] at h
    cases h
  | none =>
    rw [hhere] at h
    refine later_of_put (fun f hf => ?_) h
    rw [hhere] at hf
    cases hf

theorem advances_note (finding : Finding) : Advances (note finding) := by
  rintro a r a' ⟨⟩
  exact .of_scopes rfl rfl

theorem advances_modifyLabels (i : Nat) (f : StaticScope → StaticScope)
    (hf : ∀ s, ∃ labels gotos, f s = { s with labels, gotos }) : Advances (modifyScope i f) := by
  rintro a r a' ⟨⟩
  refine .modify i fun s _ => ?_
  obtain ⟨labels, gotos, h⟩ := hf s
  rw [h]
  exact ⟨rfl, fun _ g hg => ⟨g, hg, rfl⟩⟩

theorem declaring_advances (l : List Occurrence) : Declaring @Advances l where
  toClosed := advances_closed
  note := advances_note
  variableType leaf _ := advances_closed.variableType advances_note fun t =>
    (steady_annotate leaf.slot t).advances
  literal leaf kind _ := (steady_annotate leaf.slot kind.ctype).advances
  resolve name _ := (steady_resolve name).advances
  declare := advances_declare
  label := advances_closed.label advances_modifyLabels
  goto := advances_closed.goto advances_modifyLabels
  scope kind f hbody := by
    intro a r a' h
    obtain ⟨_, b, henter, h, -⟩ := exec_bind_eq_ok h
    obtain ⟨_, c, hc, hleave, -⟩ := exec_bind_eq_ok h
    cases henter
    cases hleave
    have hlater := hbody _ _ c hc
    -- the scope that is left still lies in the one that was current before
    obtain ⟨s, hs, hparent, -⟩ := hlater.scopes a.scopes.size _ Array.getElem?_push_size
    refine ⟨?_, fun i s hi => hlater.scopes i s ?_⟩
    · change (c.current.bind fun i => c.scopes[i]?).bind (·.parent) = a.current
      rw [hlater.current, Option.bind_some, hs, Option.bind_some, hparent]
      rfl
    · rw [Array.getElem?_push_lt (Array.getElem?_eq_some_iff.mp hi).1]
      exact Array.getElem?_eq_getElem _ ▸ hi
  structs f := Steady.advances (steady_modify fun _ => ⟨rfl, rfl⟩)

/-! ## Declarations of functions -/

theorem hasType_of_parameter {d : Declarator} {v : Variable} {a a' : Analysis}
    (h : (parameter d).exec a = .ok v a') : d.HasType v.type.undeclared := by
  obtain ⟨t, b, ht, h, -⟩ := exec_bind_eq_ok h
  obtain ⟨base, hbase, rfl⟩ := exists_of_declaredType ht
  dsimp only at h
  split at h
  · cases h
  · cases h
    exact ⟨_, base, hbase, rfl⟩

theorem hasType_of_parameters {params : List Declarator} {vs : List Variable} {a a' : Analysis}
    (h : (params.mapM parameter).exec a = .ok vs a') :
    List.Forall₂ Declarator.HasType params (vs.map fun v => v.type.undeclared) := by
  induction params generalizing a vs with
  | nil =>
    rw [List.mapM_nil] at h
    cases h
    exact .nil
  | cons d rest ih =>
    rw [List.mapM_cons] at h
    obtain ⟨v, b, hv, h, -⟩ := exec_bind_eq_ok h
    obtain ⟨vs', c, hvs, h, -⟩ := exec_bind_eq_ok h
    cases h
    exact .cons (hasType_of_parameter hv) (ih hvs)

theorem types_of_hasTypes {f : Signature} {returnType : CType} {params : List Variable}
    (h : hasTypes f returnType params = true) :
    f.types = params.map fun v => v.type.undeclared := by
  have hlength := length_of_hasTypes h
  simp only [hasTypes, Bool.and_eq_true, List.all_eq_true] at h
  refine List.ext_getElem (by simpa [Signature.types] using hlength) fun i hi hi' => ?_
  simp only [Signature.types, List.getElem_map]
  refine CType.undeclared_eq_of_sameAs (h.2 (_, _) (List.mem_iff_getElem.mpr ⟨i, ?_, ?_⟩))
  · rw [List.length_zip, hlength, Nat.min_self]
    simpa using hi'
  · exact List.getElem_zip

/-- The declaration of a function makes it known with the types of its parameters, and keeps the
types of the other functions. -/
theorem signature_eq_ok {name : Token} {returnType : CType} {params : List Variable}
    {hasBody : Bool} {f : Signature} {a a' : Analysis} (ha : a.IsOpen)
    (h : (signature name returnType params hasBody).exec a = .ok f a') :
    a.Later a' ∧ ∃ g, a'.lookupHere name.id = some (.function g) ∧
      g.types = params.map fun v => v.type.undeclared := by
  obtain ⟨_, _, hget, h, -⟩ := exec_bind_eq_ok h
  cases hget
  obtain ⟨i, s, hi, hs⟩ := ha
  -- There is a scope, so that putting a name in it cannot fail.
  have hput (e : Entity) : (put name.id e).exec a =
      .ok () { a with scopes := a.scopes.modify i (·.put name.id e) } := by
    rw [put, exec_bind_of_ok _ (exec_get a)]
    split
    · rename_i hnone
      rw [hi] at hnone
      cases hnone
    · rename_i k hk
      rw [hi] at hk
      cases hk
      rfl
  cases hhere : a.lookupHere name.id with
  | none =>
    rw [hhere] at h
    dsimp only at h
    rw [exec_bind_of_ok _ (hput _)] at h
    cases h
    refine ⟨later_of_put (fun f hf => ?_) (hput _), _, Analysis.lookupHere_put hi hs _ _, rfl⟩
    rw [hhere] at hf
    cases hf
  | some e =>
    rcases e with v | g
    · rw [hhere] at h
      cases h
    · rw [hhere] at h
      dsimp only at h
      split at h
      · cases h
      split at h
      · cases h
      rename_i htypes
      have htypes := types_of_hasTypes (by simpa using htypes)
      split at h
      · rw [exec_bind_of_ok _ (hput _)] at h
        cases h
        refine ⟨later_of_put (fun f hf => ?_) (hput _), _, Analysis.lookupHere_put hi hs _ _, rfl⟩
        rw [hhere] at hf
        cases hf
        exact ⟨_, rfl, htypes.symm⟩
      · cases h
        exact ⟨.of_scopes rfl rfl, _, hhere, htypes⟩

/-- The function of a head is known afterwards with the types of its parameters. -/
theorem declareHead_eq_ok {head : FunctionHead} {f : Signature} {a a' : Analysis} (ha : a.IsOpen)
    (h : (declareHead head).exec a = .ok f a') :
    a.Later a' ∧ ∃ g, a'.lookupHere head.name.token.id = some (.function g) ∧ head.Fits g := by
  obtain ⟨t, b, hresolve, h, -⟩ := exec_bind_eq_ok h
  dsimp only at h
  split at h
  · cases h
  obtain ⟨vs, c, hparams, hsignature, -⟩ := exec_bind_eq_ok h
  have hadvances : Advances (head.params.mapM parameter) :=
    advances_closed.mapM fun d _ =>
      (declaring_advances d.occurrences).parameter d (List.Subset.refl _)
  have hlater : a.Later c :=
    ((steady_resolve _).advances a t b hresolve).trans (hadvances b vs c hparams)
  obtain ⟨hlater', g, hg, htypes⟩ := signature_eq_ok (hlater.isOpen ha) hsignature
  refine ⟨hlater.trans hlater', g, hg, ?_⟩
  rw [FunctionHead.Fits, htypes]
  exact hasType_of_parameters hparams

/-- The functions that are known stay known with the types of their parameters, and the function
that a piece of a program declares becomes known with the types of its own. -/
theorem item_eq_ok {i : Item} {a a' : Analysis} (ha : a.IsOpen) (h : (item i).exec a = .ok () a') :
    a.Later a' ∧ ∀ head, i.head? = some head →
      ∃ g, a'.lookupHere head.name.token.id = some (.function g) ∧ head.Fits g := by
  have hadvances := declaring_advances i.occurrences
  cases i with
  | directive token => exact ⟨advances_closed.pure () a () a' h, fun _ hhead => by cases hhead⟩
  | struct name fields =>
    exact ⟨hadvances.structDecl name fields (List.Subset.refl _) a () a' h,
      fun _ hhead => by cases hhead⟩
  | function returnType name params body =>
    obtain ⟨f, b, hhead, hbody, -⟩ := exec_bind_eq_ok h
    obtain ⟨hlater, g, hg, hfits⟩ :=
      @declareHead_eq_ok ⟨returnType, name, params, true⟩ _ _ _ ha hhead
    obtain ⟨-, hoccurrences⟩ := List.append_subset.mp
      (List.subset_of_cons_subset (List.Subset.refl (Item.occurrences (.function returnType name
        params body))))
    have hlater' := hadvances.functionBody f body hoccurrences b () a' hbody
    refine ⟨hlater.trans hlater', ?_⟩
    rintro _ ⟨⟩
    obtain ⟨g', hg', htypes⟩ := hlater'.lookupHere hg
    exact ⟨g', hg', by rwa [FunctionHead.Fits, htypes]⟩
  | prototype returnType name params =>
    obtain ⟨f, b, hhead, hrest, -⟩ := exec_bind_eq_ok h
    cases hrest
    obtain ⟨hlater, hknown⟩ :=
      @declareHead_eq_ok ⟨returnType, name, params, false⟩ _ _ _ ha hhead
    refine ⟨hlater, ?_⟩
    rintro _ ⟨⟩
    exact hknown
  | declaration d =>
    exact ⟨hadvances.each (List.Subset.refl _) hadvances.declarator a () a' h,
      fun _ hhead => by cases hhead⟩

/-- After the pieces of a program, the functions are known that they declare, each with the types of
all its declarations. -/
theorem items_eq_ok {items : List Item} {a a' : Analysis} (ha : a.IsOpen)
    (h : (items.forM item).exec a = .ok () a') :
    a.Later a' ∧ ∀ i ∈ items, ∀ head, i.head? = some head →
      ∃ g, a'.lookupHere head.name.token.id = some (.function g) ∧ head.Fits g := by
  induction items generalizing a with
  | nil =>
    cases h
    exact ⟨.of_scopes rfl rfl, List.forall_mem_nil _⟩
  | cons i rest ih =>
    obtain ⟨_, b, hi, hrest, -⟩ := exec_bind_eq_ok h
    obtain ⟨hlater, hheads⟩ := item_eq_ok ha hi
    obtain ⟨hlater', hheads'⟩ := ih (hlater.isOpen ha) hrest
    refine ⟨hlater.trans hlater', List.forall_mem_cons.mpr ⟨fun head hhead => ?_, hheads'⟩⟩
    obtain ⟨g, hg, hfits⟩ := hheads head hhead
    obtain ⟨g', hg', htypes⟩ := hlater'.lookupHere hg
    exact ⟨g', hg', by rwa [FunctionHead.Fits, htypes]⟩

/-! ## Where the functions come from -/

end Check

/-- Whether a piece of a program declares a function under a number, with the types of its
parameters. -/
def Program.Declares (p : Program) (id : Nat) (f : Signature) : Prop :=
  ∃ i ∈ p.items, ∃ head, i.head? = some head ∧ head.name.token.id = id ∧ head.Fits f

/-- Whether a program declares the functions that are known in the scopes of a state. -/
def Analysis.Declared (p : Program) (a : Analysis) : Prop :=
  ∀ (i : Nat) (s : StaticScope) (id : Nat) (f : Signature), a.scopes[i]? = some s →
    s.names.lookup id = some (.function f) → p.Declares id f

namespace Check

open Traced

variable {p : Program} {l : List Occurrence} {α : Type}

/-- A change of other things than the scopes. -/
theorem preserves_modify {f : Analysis → Analysis} (hf : ∀ a, (f a).scopes = a.scopes) :
    Preserves (Analysis.Declared p) (modify f : Check PUnit) := by
  refine preserves_of_change (g := f) (fun _ => ⟨rfl, rfl⟩) fun a ha => ?_
  rw [Analysis.Declared, hf]
  exact ha

theorem preserves_put {id : Nat} {e : Entity} (he : ∀ f, e = .function f → p.Declares id f) :
    Preserves (Analysis.Declared p) (put id e) := by
  refine Preserves.bind (preserves_of_still fun _ => ⟨rfl, rfl⟩) fun a => ?_
  split
  · exact preserves_of_still fun _ => ⟨rfl, rfl⟩
  · rename_i k _
    refine preserves_of_change (g := fun a => { a with scopes := a.scopes.modify k (·.put id e) })
      (fun _ => ⟨rfl, rfl⟩) fun a ha i s n f hs hf => ?_
    dsimp only at hs
    rw [Array.getElem?_modify] at hs
    split at hs
    · obtain ⟨s', hs', rfl⟩ := Option.map_eq_some_iff.mp hs
      rw [StaticScope.lookup_put] at hf
      split at hf
      · rename_i hn
        cases hf
        exact hn ▸ he f rfl
      · exact ha i s' n f hs' hf
    · exact ha i s n f hs hf

theorem preserves_closed : Closed fun x => Preserves (Analysis.Declared p) x where
  pure _ := preserves_of_still fun _ => ⟨rfl, rfl⟩
  bind := Preserves.bind
  fail _ _ := preserves_of_still fun _ => ⟨rfl, rfl⟩
  get := preserves_of_still fun _ => ⟨rfl, rfl⟩

theorem preserves_annotate (slot : Nat) (t : CType) :
    Preserves (Analysis.Declared p) (annotate slot t) :=
  preserves_closed.annotate (preserves_modify fun _ => rfl)

theorem preserves_note (finding : Finding) :
    Preserves (Analysis.Declared p) (note finding : Check Unit) :=
  preserves_of_change (g := id) (fun _ => ⟨rfl, rfl⟩) fun _ => id

theorem preserves_modifyLabels (k : Nat) (f : StaticScope → StaticScope)
    (hf : ∀ s, ∃ labels gotos, f s = { s with labels, gotos }) :
    Preserves (Analysis.Declared p) (modifyScope k f) := by
  refine preserves_of_change (g := fun a => { a with scopes := a.scopes.modify k f })
    (fun _ => ⟨rfl, rfl⟩) fun a ha i s n g hs hg => ?_
  dsimp only at hs
  rw [Array.getElem?_modify] at hs
  split at hs
  · obtain ⟨s', hs', rfl⟩ := Option.map_eq_some_iff.mp hs
    obtain ⟨labels, gotos, h⟩ := hf s'
    rw [h] at hg
    exact ha i s' n g hs' hg
  · exact ha i s n g hs hg

/-- Only the declarations of functions make functions known. -/
theorem preserves_declaring : Declaring (fun x => Preserves (Analysis.Declared p) x) l where
  toClosed := preserves_closed
  note := preserves_note
  variableType leaf _ := preserves_closed.variableType preserves_note (preserves_annotate leaf.slot)
  literal leaf kind _ := preserves_annotate leaf.slot kind.ctype
  resolve name _ := preserves_closed.resolve (preserves_annotate name.slot)
  declare v := by
    refine preserves_closed.bind preserves_closed.get fun a => ?_
    split
    · exact preserves_closed.failAt _ _
    · exact preserves_put fun f h => by cases h
  label := preserves_closed.label preserves_modifyLabels
  goto := preserves_closed.goto preserves_modifyLabels
  scope kind f hbody := by
    refine Preserves.bind ?_ fun _ => Preserves.bind hbody fun _ => preserves_modify fun _ => rfl
    refine preserves_of_change (g := fun a => { a with
      scopes := a.scopes.push (.opened a.current kind f)
      current := some a.scopes.size }) (fun _ => ⟨rfl, rfl⟩) fun a ha i s n g hs hg => ?_
    dsimp only at hs
    rw [Array.getElem?_push] at hs
    split at hs
    · cases hs
      cases hg
    · exact ha i s n g hs hg
  structs f := preserves_modify fun _ => rfl

/-- A function that a piece of a program makes known is declared by it. -/
theorem preserves_declareHead {i : Item} (hi : i ∈ p.items) {head : FunctionHead}
    (hhead : i.head? = some head) : Preserves (Analysis.Declared p) (declareHead head) := by
  have hP (d : Declarator) := preserves_declaring (p := p) (l := d.occurrences)
  refine Preserves.bind ?_ fun t => preserves_closed.reject ?_
  · exact (preserves_declaring (l := [.type head.returnType])).resolve _ List.mem_cons_self
  refine Preserves.bind_of_ok ?_ fun a vs a' hparams => ?_
  · exact preserves_closed.mapM fun d _ => (hP d).parameter d (List.Subset.refl _)
  have hfits (f : Signature) (hf : f.params = vs) : p.Declares head.name.token.id f := by
    refine ⟨i, hi, head, hhead, rfl, ?_⟩
    rw [FunctionHead.Fits, Signature.types, hf]
    exact hasType_of_parameters hparams
  refine preserves_closed.bind preserves_closed.get fun a => ?_
  split
  · refine preserves_closed.reject (preserves_closed.reject ?_)
    dsimp only
    split
    · refine Preserves.bind (preserves_put fun f hf => ?_) fun _ => preserves_closed.pure _
      cases hf
      exact hfits _ rfl
    · exact preserves_closed.pure _
  · exact preserves_closed.failAt _ _
  · refine Preserves.bind (preserves_put fun f hf => ?_) fun _ => preserves_closed.pure _
    cases hf
    exact hfits _ rfl

/-- All functions that the analysis of a program knows at any time are declared by the program. -/
theorem declared_of_mem_states {a : Analysis} (ha : a ∈ (program p).states .start) :
    a.Declared p := by
  have hpreserves : Preserves (Analysis.Declared p) (program p) :=
    preserves_declaring.program p fun i hi head hhead => preserves_declareHead hi hhead
  refine hpreserves .start (fun i s id f hs => ?_) a ha
  cases (show (#[] : Array StaticScope)[i]? = some s from hs)

end Check

namespace Program

variable {p : Program}

/-- All declarations of a function in an accepted program have the same types of parameters. -/
theorem fits_of_declares (haccepted : p.Accepted) {f : Signature} {i : Item} (hi : i ∈ p.items)
    {head : FunctionHead} (hhead : i.head? = some head)
    (hf : p.Declares head.name.token.id f) : head.Fits f := by
  obtain ⟨j, hj, head', hhead', hid, hfits'⟩ := hf
  unfold Accepted check at haccepted
  cases hexec : (Check.program p).exec .start with
  | error e t =>
    rw [hexec] at haccepted
    cases haccepted
  | ok _ t =>
    obtain ⟨_, a, henter, hrest, -⟩ := Traced.exec_bind_eq_ok hexec
    obtain ⟨_, b, hitems, -⟩ := Traced.exec_bind_eq_ok hrest
    cases henter
    have hknown := fun hopen => (Check.items_eq_ok hopen hitems).2
    specialize hknown ⟨0, .opened none .global none, rfl, rfl⟩
    obtain ⟨g, hg, hfits⟩ := hknown i hi head hhead
    obtain ⟨g', hg', hfits''⟩ := hknown j hj head' hhead'
    -- there is one entry for both declarations
    rw [hid, hg] at hg'
    cases hg'
    rw [FunctionHead.Fits, hfits'.types_eq hfits'']
    exact hfits

end Program

end MiniC
