import MiniC.Proofs.Recorded

set_option autoImplicit false

/-! # Accepted initializers

The analysis looks at an initializer along the pointer levels of the type of its variable: each item
of a list belongs to what a pointer of the type of the list points to, and an item that is no list
has a type that may be cast to that of its place. -/

namespace MiniC

/-! ## Forms of initializers -/

namespace Expr

/-- The parts of an initializer that are no lists. -/
def singles : Expr → List Expr
  | .list head tail => head.singles ++ singlesAll tail
  | e => [e]
where
  /-- The parts of several initializers that are no lists. -/
  singlesAll : List Expr → List Expr
    | [] => []
    | e :: rest => e.singles ++ singlesAll rest

theorem singles_of_items?_eq_none {e : Expr} (h : e.items? = none) : e.singles = [e] := by
  cases e with
  | list head tail => cases h
  | _ => rfl

theorem singles_subset_singlesAll {e : Expr} {l : List Expr} (h : e ∈ l) :
    e.singles ⊆ singles.singlesAll l := by
  induction l with
  | nil => cases h
  | cons first rest ih =>
    rcases List.mem_cons.mp h with rfl | h
    · exact List.subset_append_left _ _
    · exact List.Subset.trans (ih h) (List.subset_append_right _ _)

theorem singles_subset_list {head item : Expr} {tail : List Expr} (h : item ∈ head :: tail) :
    item.singles ⊆ (Expr.list head tail).singles :=
  singles_subset_singlesAll (l := head :: tail) h

/-- Whether an initializer is a list or a string literal. -/
def fillsArray (e : Expr) : Bool :=
  e.items?.isSome || e.string?.isSome

/-- Whether an initializer has a form that can be stored in a variable with the given number of
dimensions, whose elements are of the type `t`. An array of arrays takes a list in which each item
fills a row, unless no item is a list: such a list fills the elements one by one, and its items have
the types of the rows. -/
def storable (init : Expr) (t : CType) : Nat → Bool
  | 0 => init.items?.isNone
  | 1 => init.fillsArray
  | 2 =>
    match init.items? with
    | none => false
    | some items =>
      if items.all fun item => item.items?.isNone then t.isPointer
      else items.all fillsArray
  | _ => true

end Expr

/-! ## What the analysis has found -/

namespace Check

/-- Whether an initializer of a place of the given type was accepted by an analysis that passed only
through states in which `A` holds. -/
def AcceptsIn (A : Analysis → Prop) (target : CType) (e : Expr) : Prop :=
  ∃ a a', (initializer target e).exec a = .ok () a' ∧ ∀ b ∈ (initializer target e).states a, A b

variable {A : Analysis → Prop} {target : CType}

theorem recorded_initializer (target : CType) (e : Expr) :
    Traced.Recorded (initializer target e) :=
  (composed_recorded e.occurrences).initializer target e (List.Subset.refl _)

theorem acceptsIn_of_initializers {items : List Expr} {a a' : Analysis}
    (h : (initializer.initializers target items).exec a = .ok () a')
    (hA : ∀ b ∈ (initializer.initializers target items).states a, A b) :
    ∀ item ∈ items, AcceptsIn A target item := by
  induction items generalizing a with
  | nil => exact List.forall_mem_nil _
  | cons e rest ih =>
    rw [initializer.initializers] at h hA
    have hrecorded := recorded_initializer target e
    obtain ⟨_, b, he, hrest, -⟩ := Traced.exec_bind_eq_ok h
    refine List.forall_mem_cons.mpr ⟨⟨a, b, he, fun c hc => ?_⟩, ih hrest fun c hc => ?_⟩
    · exact hA c (hrecorded.states_subset_bind _ hc)
    · exact hA c (hrecorded.states_subset_of_ok (fun _ => initializer.initializers target rest)
        he hc)

/-- Each item of an accepted list is accepted for what the type of the list points to. -/
theorem AcceptsIn.items {head : Expr} {tail : List Expr}
    (h : AcceptsIn A target (.list head tail)) :
    ∃ element, target.pointee? = some element ∧
      ∀ item ∈ head :: tail, AcceptsIn A element item := by
  obtain ⟨a, a', hexec, hA⟩ := h
  rw [initializer] at hexec hA
  cases htarget : target.pointee? with
  | none =>
    rw [htarget] at hexec
    cases hexec
  | some element =>
    rw [htarget] at hexec hA
    have hitems : initializer.initializers element (head :: tail) = (do
        initializer element head
        initializer.initializers element tail) := by
      rw [initializer.initializers]
    dsimp only at hexec hA
    rw [← hitems] at hexec hA
    exact ⟨element, rfl, acceptsIn_of_initializers hexec hA⟩

/-- An accepted initializer that is no list has a type that may be cast to that of its place. -/
theorem AcceptsIn.single {e : Expr} (h : AcceptsIn A target e) (he : e.items? = none) :
    ∃ src a a', A a ∧ (exprType e).exec a = .ok src a' ∧ src.castError? target = none := by
  obtain ⟨a, a', hexec, hA⟩ := h
  rw [initializer] at hexec
  · obtain ⟨src, b, hsrc, hcast, -⟩ := Traced.exec_bind_eq_ok hexec
    refine ⟨src, a, b, hA a (Traced.mem_states_start _ a), hsrc, ?_⟩
    unfold implicitCast at hcast
    split at hcast
    · cases hcast
    · assumption
  · rintro head tail rfl
    cases he

theorem eq_of_declaredType {d : Declarator} {t declared : CType} {a a' : Analysis}
    (h : (declaredType d).exec a = .ok declared a')
    (htype : a.structs.typeOf d.type.words = .ok t) : declared = t.pointers d.dims.length := by
  obtain ⟨s, hs, rfl⟩ := exists_of_declaredType h
  rw [htype] at hs
  cases hs
  rfl

/-- The initializer of an accepted declaration is accepted for a variable of the declared type,
unless that is left to the initializer. -/
theorem acceptsIn_of_declarator {d : Declarator} {init : Expr} {t : CType} {a a' : Analysis}
    (h : (declarator d).exec a = .ok () a') (hinit : d.init = some init)
    (htype : a.structs.typeOf d.type.words = .ok t)
    (hauto : (t.pointers d.dims.length).isAuto = false) :
    AcceptsIn (· ∈ (declarator d).states a) (t.pointers d.dims.length) init := by
  have hrecorded : Traced.Recorded (declaredType d) :=
    (composed_recorded d.occurrences).declaredType d (List.Subset.refl _)
  rw [declarator, hinit] at h ⊢
  obtain ⟨declared, b, hdeclared, h, -⟩ := Traced.exec_bind_eq_ok h
  obtain rfl := eq_of_declaredType hdeclared htype
  have hinitialized : initializedType (t.pointers d.dims.length) init = (do
      initializer (t.pointers d.dims.length) init
      pure (t.pointers d.dims.length)) := by
    rw [initializedType, hauto]
    rfl
  obtain ⟨_, c, hinitializer, -, -⟩ := Traced.exec_bind_eq_ok h
  rw [hinitialized] at hinitializer
  obtain ⟨_, c', hexec, -, -⟩ := Traced.exec_bind_eq_ok hinitializer
  refine ⟨b, c', hexec, fun u hu => hrecorded.states_subset_of_ok _ hdeclared ?_⟩
  refine Traced.Recorded.states_subset_bind ?_ _ ?_
  · rw [hinitialized]
    exact (recorded_initializer _ init).bind fun _ _ => List.mem_cons_self
  · rw [hinitialized]
    exact (recorded_initializer _ init).states_subset_bind _ hu

end Check

end MiniC
