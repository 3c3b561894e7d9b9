import MiniC.Proofs.Bounds
import MiniC.Proofs.Initializers.Accepted
import MiniC.Proofs.Kinds.Values
import MiniC.Proofs.Misfits
import MiniC.Proofs.Types

set_option autoImplicit false

/-! # Accepted initializers can be stored

The analysis follows an initializer along the pointer levels of a type, and a run follows it along
the sizes of an array. Where an initializer has a form that both understand in the same way, a run
stores what the analysis has accepted: every single item gets a place whose type its own type may be
cast to. The forms leave out a list of strings for an array of arrays of characters: the analysis
accepts each string as a row, and a run takes the list for one of characters. -/

namespace MiniC

/-- Whether a value is of the kind that a type has: a pointer, a struct with the same tag, or a
number. Struct values have the given records. -/
def Value.Inhabits (records : Records) (v : Value) (t : CType) : Prop :=
  if t.isPointer then ∃ p, v = .pointer p
  else if t.isStruct then ∃ id, v = .record id ∧ t.tag? = some (records.get id).tag
  else v.numberKind?.isSome

theorem Value.isMisfit_of_toInteger {t : CType} {v : Value} {cause : Fault}
    (hv : v.numberKind?.isSome) (h : v.toInteger t = .error cause) : cause.isMisfit = false := by
  unfold toInteger at h
  cases v with
  | int n => cases h
  | float x | double x =>
    dsimp only at h
    split at h
    · cases h
      rfl
    · cases h
  | _ => cases hv

namespace Run

variable {m : Machine} {pos : Option Position}

/-! ## Conversions -/

/-- A value of one kind is converted by itself, unless it is an integer that is too large for the
type. -/
theorem convert_of_not_struct {t : CType} (h : t.isStruct = false) (v : Value) :
    convert t v pos = if t.isFloating && v.exceedsFloats then throw .tooLarge
      else liftAt pos (v.convertScalar t) := by
  unfold convert
  rw [h, if_neg Bool.false_ne_true]

theorem misfitFree_convert_of_not_struct {t : CType} {v : Value} (hstruct : t.isStruct = false)
    (h : ∀ cause, v.convertScalar t = .error cause → cause.isMisfit = false) :
    MisfitFree (convert t v pos) m := by
  rw [convert_of_not_struct hstruct]
  split
  · exact misfitFree_throw rfl
  · exact misfitFree_liftAt h

theorem misfitFree_convert_pointer {t : CType} {p : Pointer} (ht : t.isPointer) :
    MisfitFree (convert t (.pointer p) pos) m := by
  refine misfitFree_convert_of_not_struct (CType.isStruct_of_isPointer ht) fun cause h => ?_
  rw [Value.convertScalar, if_pos ht] at h
  split at h <;> cases h

theorem misfitFree_convert_record {t : CType} {id : Nat} (ht : t.isStruct)
    (htag : t.tag? = some (m.records.get id).tag) :
    MisfitFree (convert t (.record id) pos) m := by
  rw [convert, if_pos ht]
  refine misfitFree_get_bind ?_
  rw [if_pos htag]
  exact misfitFree_copy _

theorem misfitFree_convert_number {t : CType} {v : Value} (hv : v.numberKind?.isSome)
    (hpointer : t.isPointer = false) (hstruct : t.isStruct = false) :
    MisfitFree (convert t v pos) m := by
  refine misfitFree_convert_of_not_struct hstruct fun cause h => ?_
  simp only [Value.convertScalar, hpointer, Bool.false_eq_true, if_false] at h
  split at h
  · cases h
  split at h
  · cases v <;> cases hv <;> cases h
  · exact Value.isMisfit_of_toInteger hv h

/-- Whether a place of the type `t` takes the values of all types that may be cast to `target`. -/
def Takes (target t : CType) : Prop :=
  ∀ (src : CType) (v : Value) (m : Machine) (pos : Option Position),
    src.castError? target = none → v.Inhabits m.records src → MisfitFree (convert t v pos) m

theorem takes_of_isPointer {target t : CType} (htarget : target.isPointer) (ht : t.isPointer) :
    Takes target t := by
  intro src v m pos hcast hv
  rw [← (CType.alike_of_castError? hcast).1] at htarget
  rw [Value.Inhabits, if_pos htarget] at hv
  obtain ⟨p, rfl⟩ := hv
  exact misfitFree_convert_pointer ht

theorem takes_of_undeclared_eq {target t : CType} (h : t.undeclared = target.undeclared) :
    Takes target t := by
  intro src v m pos hcast hv
  have hpointer : target.isPointer = t.isPointer := by
    rw [← target.isPointer_undeclared, ← h, t.isPointer_undeclared]
  have hstruct : target.isStruct = t.isStruct := by
    rw [← target.isStruct_undeclared, ← h, t.isStruct_undeclared]
  have htag : target.tag? = t.tag? := by
    rw [← target.tag?_undeclared, ← h, t.tag?_undeclared]
  obtain ⟨hp, hs, ht⟩ := CType.alike_of_castError? hcast
  rw [hpointer] at hp
  rw [hstruct] at hs
  rw [htag] at ht
  unfold Value.Inhabits at hv
  split at hv
  · rename_i hsrc
    obtain ⟨p, rfl⟩ := hv
    exact misfitFree_convert_pointer (hp ▸ hsrc)
  · split at hv
    · rename_i hsrc
      obtain ⟨id, rfl, hid⟩ := hv
      exact misfitFree_convert_record (hs ▸ hsrc) (ht hsrc ▸ hid)
    · rename_i hsrc hsrc'
      rw [hp, Bool.not_eq_true] at hsrc
      rw [hs, Bool.not_eq_true] at hsrc'
      exact misfitFree_convert_number hv hsrc hsrc'

/-- A place of the type that is made for a value takes the value. -/
theorem misfitFree_convert_typeOfValue {v : Value} {t : CType} {m' : Machine}
    (h : (typeOfValue pos v).exec m = .ok t m') : MisfitFree (convert t v pos) m' := by
  cases v with
  | int n =>
    cases h
    exact misfitFree_convert_number rfl rfl rfl
  | float x | double x =>
    cases h
    exact misfitFree_convert_number rfl rfl rfl
  | pointer p =>
    rw [typeOfValue] at h
    split at h
    · cases h
    · cases h
      exact misfitFree_convert_pointer rfl
  | record id =>
    obtain ⟨_, _, hget, h, -⟩ := Traced.exec_bind_eq_ok h
    cases hget
    cases htype : m.structs.typeOf ["struct", (m.records.get id).tag] with
    | error e =>
      rw [htype] at h
      cases h
    | ok type =>
      rw [htype] at h
      cases h
      obtain ⟨decl, rfl⟩ := CType.eq_of_ofWords_struct htype
      exact misfitFree_convert_record rfl rfl
  | function name => cases h

/-! ## Items -/

/-- Whether, in states in which `W` holds, the evaluation of an expression is not stopped because
something does not fit its place, and has a value of the kind of each type that the analysis finds
for the expression where `A` holds. -/
structure Typed (ctx : Context) (W : Machine → Prop) (A : Analysis → Prop) (e : Expr) : Prop where
  free : ∀ m, W m → MisfitFree (eval ctx e) m
  inhabits : ∀ m v m', W m → (eval ctx e).exec m = .ok v m' →
    ∀ a t a', A a → (Check.exprType e).exec a = .ok t a' → v.Inhabits m'.records t

/-- Whether an initializer was accepted for a place of the type `target`, and its single items have
values of their types. -/
structure Admitted (ctx : Context) (W : Machine → Prop) (A : Analysis → Prop) (target : CType)
    (e : Expr) : Prop where
  accepted : Check.AcceptsIn A target e
  typed : ∀ part ∈ e.singles, Typed ctx W A part

section

variable {ctx : Context} {W : Machine → Prop} {A : Analysis → Prop} {target t : CType}

/-- The items of a list for an array are admitted for its elements. -/
theorem Admitted.items {head : Expr} {tail : List Expr}
    (h : Admitted ctx W A target.pointer (.list head tail)) :
    ∀ item ∈ head :: tail, Admitted ctx W A target item := by
  obtain ⟨element, hpointee, hitems⟩ := h.accepted.items
  cases hpointee
  refine fun item hitem => ⟨hitems item hitem, fun part hpart => ?_⟩
  exact h.typed part (Expr.singles_subset_list hitem hpart)

variable (hctx : ComposedIn (fun x => Traced.Recorded x) ctx)

include hctx

/-- The value of an admitted item fits a place that takes what the analysis has accepted. A list has
no value, and stops the run for another reason. -/
theorem misfitFreeIn_itemValue (htakes : Takes target t) {item : Expr}
    (hitem : Admitted ctx W A target item) (m : Machine) :
    MisfitFreeIn W (itemValue (eval ctx) t item) m := by
  cases hlist : item.items? with
  | some items =>
    cases item with
    | list head tail =>
      rw [itemValue, eval]
      refine ((misfitFree_failAt rfl).bind ?_).within
      rintro v m' ⟨⟩
    | _ => cases hlist
  | none =>
    obtain ⟨src, a, a', ha, hsrc, hcast⟩ := hitem.accepted.single hlist
    have htyped : Typed ctx W A item := hitem.typed item (by
      rw [Expr.singles_of_items?_eq_none hlist]
      exact List.mem_singleton_self item)
    refine .bind (hctx.eval item) (fun hm => (htyped.free m hm).within) fun v m' hv hm => ?_
    exact (htakes src v m' _ hcast (htyped.inhabits m v m' hm hv a src a' ha hsrc)).within

/-! ## Slots -/

theorem misfitFreeIn_fillFlat (htakes : Takes target t) {array : Pointer} {length : Nat}
    {items : List Expr} (hitems : ∀ item ∈ items, Admitted ctx W A target item) (i : Nat)
    (m : Machine) : MisfitFreeIn W (fillFlat (eval ctx) array t length i items) m := by
  induction items generalizing i m with
  | nil => exact (misfitFree_pure ()).within
  | cons item rest ih =>
    obtain ⟨hitem, hrest⟩ := List.forall_mem_cons.mp hitems
    rw [fillFlat]
    refine .bind (composed_recorded.rowAt _) (fun _ => (misfitFree_rowAt _).within) ?_
    intro row m₁ _ _
    refine .bind (composed_recorded.toClosed.itemValue hctx.items t trivial)
      (fun _ => misfitFreeIn_itemValue hctx htakes hitem m₁) fun v m₂ _ _ => ?_
    refine .bind (composed_recorded.store _ v) (fun _ => (misfitFree_store _ v).within) ?_
    exact fun _ m₃ _ _ => ih hrest (i + 1) m₃

/-- An admitted item fits the slot of an array that is no array of arrays: it is no list if the
elements are structs, since the analysis accepts lists for pointers only. -/
theorem misfitFreeIn_fillSlot (hlike : t.undeclared = target.undeclared) {item : Expr}
    (hitem : Admitted ctx W A target item) (slot : Pointer) (fillRow : Pointer → Run Unit)
    (fillRecord : Nat → Run Unit) (m : Machine) :
    MisfitFreeIn W (fillSlot (eval ctx) slot t false item fillRow fillRecord) m := by
  have hrecord : (item.items?.isSome && t.isStruct) = false := by
    cases item with
    | list head tail =>
      obtain ⟨element, hpointee, -⟩ := hitem.accepted.items
      have hpointer := CType.isPointer_of_pointee? hpointee
      rw [← t.isStruct_undeclared, hlike, target.isStruct_undeclared,
        CType.isStruct_of_isPointer hpointer, Bool.and_false]
    | _ => rfl
  rw [fillSlot, if_neg Bool.false_ne_true, hrecord, if_neg Bool.false_ne_true]
  refine .bind (composed_recorded.toClosed.itemValue hctx.items t trivial)
    (fun _ => misfitFreeIn_itemValue hctx (takes_of_undeclared_eq hlike) hitem m) ?_
  exact fun v _ _ _ => (misfitFree_store slot v).within

/-- The slots of an array fit the items of a list if each slot does. -/
theorem misfitFreeIn_fillSlots {sizes : List Nat} {items : List Expr}
    (hitems : ∀ item ∈ items, ∀ slot m,
      MisfitFreeIn W (fillSlot (eval ctx) slot t (1 < sizes.length) item
        (fun row => fillArray (eval ctx) row t sizes.tail item)
        (fun id => fillRecord (eval ctx) id t item)) m) (slot : Pointer) (m : Machine) :
    MisfitFreeIn W (fillSlots (eval ctx) slot t sizes items) m := by
  induction items generalizing slot m with
  | nil =>
    rw [fillSlots]
    exact (misfitFree_pure ()).within
  | cons item rest ih =>
    obtain ⟨hitem, hrest⟩ := List.forall_mem_cons.mp hitems
    have hclosed := composed_recorded.toClosed
    rw [fillSlots]
    refine .bind (hclosed.fillSlot hctx.items slot t _ trivial ?_ ?_) (fun _ => hitem slot m) ?_
    · exact fun row => hclosed.fillArray hctx.items row t sizes.tail item trivial
    · exact fun id => hclosed.fillRecord hctx.items id t item trivial
    · exact fun _ m' _ _ => ih hrest (slot.moved 1) m'

/-! ## Arrays -/

/-- An array fits a list that is not taken for one of elements if each slot fits its item. -/
theorem misfitFreeIn_fillArray_list {sizes : List Nat} {head : Expr} {tail : List Expr}
    (hflat : isFlat sizes (head :: tail) = false)
    (hitems : ∀ item ∈ head :: tail, ∀ slot m,
      MisfitFreeIn W (fillSlot (eval ctx) slot t (1 < sizes.length) item
        (fun row => fillArray (eval ctx) row t sizes.tail item)
        (fun id => fillRecord (eval ctx) id t item)) m) (array : Pointer) (m : Machine) :
    MisfitFreeIn W (fillArray (eval ctx) array t sizes (.list head tail)) m := by
  have hslots := misfitFreeIn_fillSlots hctx hitems array m
  rw [fillSlots] at hslots
  rw [fillArray, hflat]
  rw [if_neg Bool.false_ne_true]
  split
  · exact (misfitFree_failAt rfl).within
  · exact hslots

/-- An array fits an admitted list, and a string literal. -/
theorem misfitFreeIn_fillArray_one (hlike : t.undeclared = target.undeclared) {init : Expr}
    (hform : init.fillsArray) (hinit : Admitted ctx W A target.pointer init) (array : Pointer)
    (size : Nat) (m : Machine) :
    MisfitFreeIn W (fillArray (eval ctx) array t [size] init) m := by
  cases init with
  | list head tail =>
    refine misfitFreeIn_fillArray_list hctx rfl (fun item hitem slot m' => ?_) array m
    exact misfitFreeIn_fillSlot hctx hlike (hinit.items item hitem) slot _ _ m'
  | literal leaf kind =>
    cases kind with
    | string => exact (misfitFree_fillString array size leaf.token).within
    | _ => cases hform
  | _ => cases hform

/-- An array of arrays fits an admitted list that has a list or a string literal for each row, or
one of pointers. -/
theorem misfitFreeIn_fillArray_two (hlike : t.undeclared = target.undeclared) {init : Expr}
    (hform : init.storable target 2) (hinit : Admitted ctx W A (target.pointers 2) init)
    (array : Pointer) (rows size : Nat) (m : Machine) :
    MisfitFreeIn W (fillArray (eval ctx) array t [rows, size] init) m := by
  cases init with
  | list head tail =>
    have hitems : ∀ item ∈ head :: tail, Admitted ctx W A target.pointer item := hinit.items
    change (if (head :: tail).all fun item => item.items?.isNone then target.isPointer
      else (head :: tail).all Expr.fillsArray) = true at hform
    split at hform
    · rename_i hflat
      have hpointer : t.isPointer := by
        rw [← t.isPointer_undeclared, hlike, target.isPointer_undeclared, hform]
      have hisFlat : isFlat [rows, size] (head :: tail) = true := hflat
      rw [fillArray, hisFlat, if_pos rfl]
      split
      · exact (misfitFree_failAt rfl).within
      · exact misfitFreeIn_fillFlat hctx (takes_of_isPointer rfl hpointer) hitems 0 m
    · rename_i hflat
      have hisFlat : isFlat [rows, size] (head :: tail) = false := by
        rw [isFlat, (Bool.not_eq_true _).mp hflat, Bool.and_false]
      refine misfitFreeIn_fillArray_list hctx hisFlat (fun item hitem slot m' => ?_) array m
      refine .bind (composed_recorded.rowAt slot) (fun _ => (misfitFree_rowAt slot).within) ?_
      intro row m₁ _ _
      exact misfitFreeIn_fillArray_one hctx hlike (List.all_eq_true.mp hform item hitem)
        (hitems item hitem) row size m₁
  | _ => cases hform

/-- An array fits an admitted initializer that has a form that can be stored in it. -/
theorem misfitFreeIn_fillArray (hlike : t.undeclared = target.undeclared) {init : Expr}
    {sizes : List Nat} (hform : init.storable target sizes.length) (hsizes : sizes ≠ [])
    (hrank : sizes.length ≤ maxRank)
    (hinit : Admitted ctx W A (target.pointers sizes.length) init) (array : Pointer) (m : Machine) :
    MisfitFreeIn W (fillArray (eval ctx) array t sizes init) m := by
  match sizes with
  | [] => exact absurd rfl hsizes
  | [size] => exact misfitFreeIn_fillArray_one hctx hlike hform hinit array size m
  | [rows, size] => exact misfitFreeIn_fillArray_two hctx hlike hform hinit array rows size m
  | _ :: _ :: _ :: rest =>
    have : rest.length + 3 ≤ 2 := hrank
    omega

/-! ## Declarations -/

theorem misfitFreeIn_sizesOf {dims : List Dim}
    (hdims : ∀ size, .sized size ∈ dims → ∀ m, W m → MisfitFree (eval ctx size) m) (needed : Nat)
    (m : Machine) : MisfitFreeIn W (sizesOf (eval ctx) needed dims) m := by
  induction dims generalizing needed m with
  | nil => exact (misfitFree_pure []).within
  | cons dim rest ih =>
    have hrest := ih fun size hsize => hdims size (List.mem_cons_of_mem dim hsize)
    have hrecorded : Traced.Recorded (sizesOf (eval ctx) 0 rest) :=
      composed_recorded.toClosed.sizesOf hctx.items 0 fun _ _ => trivial
    cases dim with
    | unsized =>
      refine .bind hrecorded (fun _ => hrest 0 m) fun sizes _ _ _ => ?_
      exact (misfitFree_pure _).within
    | sized size =>
      refine .bind (hctx.eval size)
        (fun hm => (hdims size List.mem_cons_self m hm).within) fun v m₁ _ _ => ?_
      cases v with
      | int n =>
        dsimp only
        split
        · exact (misfitFree_failAt rfl).within
        · refine .bind hrecorded (fun _ => hrest 0 m₁) fun sizes _ _ _ => ?_
          exact (misfitFree_pure _).within
      | _ => exact (misfitFree_failAt rfl).within

omit hctx in
theorem length_le_of_arraySizes {eval : Expr → Run Value} {d : Declarator} {init : Option Expr}
    {sizes : List Nat} {m m' : Machine} (h : (arraySizes eval d init).exec m = .ok sizes m') :
    d.dims.length ≤ maxRank := by
  unfold arraySizes at h
  split at h
  · cases h
  · omega

theorem misfitFreeIn_declareArray {d : Declarator} {init : Expr} (hinit : d.init = some init)
    (hdims : d.dims ≠ []) (hlike : t.undeclared = target.undeclared)
    (hform : init.storable target d.dims.length)
    (hsizes : ∀ size, .sized size ∈ d.dims → ∀ m, W m → MisfitFree (eval ctx size) m)
    (hadmitted : Admitted ctx W A (target.pointers d.dims.length) init) (m : Machine) :
    MisfitFreeIn W (declareArray ctx d t) m := by
  have hsized (m : Machine) : MisfitFreeIn W (arraySizes (eval ctx) d (some init)) m := by
    unfold arraySizes
    split
    · exact (misfitFree_failAt rfl).within
    · exact misfitFreeIn_sizesOf hctx hsizes _ m
  rw [declareArray, hinit]
  refine .bind (hctx.arraySizes d _) (fun _ => hsized m) fun sizes m₁ hexec _ => ?_
  have hlength := length_of_arraySizes hexec
  have hrank := length_le_of_arraySizes hexec
  rw [← hlength] at hform hadmitted hrank
  refine .bind (hctx.declaredType _ d) (fun _ => (misfitFree_declaredType _ d).within) ?_
  intro declared m₂ _ _
  refine .bind (hctx.newArray true t sizes) (fun _ => (misfitFree_newArray true t sizes).within) ?_
  intro array m₃ _ _
  refine .bind (composed_recorded.toClosed.fillArray hctx.items array t sizes init trivial)
    (fun _ => ?_) fun _ m₄ _ _ => (misfitFree_introduce _ _ _).within
  refine misfitFreeIn_fillArray hctx hlike hform ?_ hrank hadmitted array m₃
  rintro rfl
  exact hdims (List.length_eq_zero_iff.mp hlength.symm)

theorem misfitFreeIn_declareValue {d : Declarator} {init : Expr}
    (hlike : t.undeclared = target.undeclared) (hlist : init.items? = none)
    (htyped : Typed ctx W A init)
    (haccepted : target.isAuto = false → Check.AcceptsIn A target init) (m : Machine) :
    MisfitFreeIn W (declareValue ctx d t init) m := by
  refine .bind (hctx.eval init) (fun hm => (htyped.free m hm).within) fun v m₁ hv hm => ?_
  dsimp only
  split
  · refine MisfitFree.within ((misfitFree_typeOfValue _ v).bind fun type m₂ htype => ?_)
    refine (misfitFree_convert_typeOfValue htype).bind fun w m₃ _ => ?_
    exact misfitFree_introduce _ _ _
  · rename_i hauto
    rw [← t.isAuto_undeclared, hlike, target.isAuto_undeclared, Bool.not_eq_true] at hauto
    obtain ⟨src, a, a', ha, hsrc, hcast⟩ := (haccepted hauto).single hlist
    refine MisfitFree.within ((misfitFree_pure t).bind ?_)
    rintro _ _ ⟨⟩
    refine (takes_of_undeclared_eq hlike src v m₁ _ hcast ?_).bind fun w m₃ _ => ?_
    · exact htyped.inhabits m v m₁ hm hv a src a' ha hsrc
    · exact misfitFree_introduce _ _ _

end

/-- The type that a run finds for a type name is the one that the analysis finds, up to the
declarations of structs. -/
theorem undeclared_eq_of_resolve {ctx : Context} {name : TypeName} {structs : StructTable}
    {s t : CType} {m m' : Machine} (hfounded : ctx.Founded [.type name])
    (hs : structs.typeOf name.words = .ok s) (ht : (resolve ctx.known name).exec m = .ok t m') :
    t.undeclared = s.undeclared := by
  have hnamed (h : (typeNamed name).exec m = .ok t m') : t.undeclared = s.undeclared := by
    obtain ⟨_, _, hget, h, -⟩ := Traced.exec_bind_eq_ok h
    cases hget
    cases htype : m.structs.typeOf name.words with
    | error e =>
      rw [htype] at h
      cases h
    | ok type =>
      rw [htype] at h
      cases h
      exact CType.undeclared_eq_of_ofWords htype hs
  unfold resolve at ht
  cases hknown : ctx.known name.slot with
  | none =>
    rw [hknown] at ht
    exact hnamed ht
  | some type =>
    rw [hknown] at ht
    dsimp only at ht
    split at ht
    · cases ht
      obtain ⟨find?, hwords⟩ := hfounded name t List.mem_cons_self hknown
      exact CType.undeclared_eq_of_ofWords hwords hs
    · exact hnamed ht

/-- A declaration whose initializer was accepted by the analysis is not stopped because something
does not fit its place, if the initializer has a form that can be stored in the variable, and its
items have values of their types. -/
theorem misfitFree_declarator {known : Nat → Option CType} {fuel : Nat} {d : Declarator}
    {init : Expr} {t : CType} {a a' : Analysis} {m : Machine}
    (haccepted : (Check.declarator d).exec a = .ok () a') (hinit : d.init = some init)
    (htype : a.structs.typeOf d.type.words = .ok t) (hform : init.storable t d.dims.length)
    (hfounded : Context.Founded ⟨known, call known fuel⟩ [.type d.type])
    (hsizes : ∀ size, .sized size ∈ d.dims →
      ∀ s ∈ (declarator ⟨known, call known fuel⟩ d).states m,
        MisfitFree (eval ⟨known, call known fuel⟩ size) s)
    (hitems : ∀ item ∈ init.singles, Typed ⟨known, call known fuel⟩
      (· ∈ (declarator ⟨known, call known fuel⟩ d).states m)
      (· ∈ (Check.declarator d).states a) item) :
    MisfitFree (declarator ⟨known, call known fuel⟩ d) m := by
  have hctx := composed_recorded.context known fuel
  -- The items have values of their types in the states of this run, so it is followed among these.
  suffices hwithin : MisfitFreeIn (· ∈ (declarator ⟨known, call known fuel⟩ d).states m)
      (declarator ⟨known, call known fuel⟩ d) m from hwithin fun _ hu => hu
  refine .bind (hctx.resolve known d.type) (fun _ => (misfitFree_resolve known d.type).within) ?_
  intro type m₁ hresolve _
  have hlike := undeclared_eq_of_resolve hfounded htype hresolve
  have hadmitted (hauto : (t.pointers d.dims.length).isAuto = false) :=
    Check.acceptsIn_of_declarator haccepted hinit htype hauto
  split
  · rename_i hdims
    have hdims : d.dims ≠ [] := by
      rintro h
      rw [h] at hdims
      cases hdims
    have hpointer := t.isPointer_pointers (mt List.length_eq_zero_iff.mp hdims)
    have haccepted := hadmitted (CType.isAuto_of_isPointer hpointer)
    exact misfitFreeIn_declareArray hctx hinit hdims hlike hform hsizes ⟨haccepted, hitems⟩ m₁
  · rename_i hdims
    have hdims : d.dims = [] := by simpa using hdims
    rw [hdims] at hform hadmitted
    have hlist : init.items? = none := Option.isNone_iff_eq_none.mp hform
    have htyped := hitems init (by
      rw [Expr.singles_of_items?_eq_none hlist]
      exact List.mem_singleton_self init)
    rw [hinit]
    dsimp only
    rw [hlist, Option.isSome_none, if_neg Bool.false_ne_true]
    exact misfitFreeIn_declareValue hctx hlike hlist htyped hadmitted m₁

/-! ## A list and a string as rows -/

theorem misfitFree_literal (ctx : Context) (leaf : Leaf) (kind : LiteralKind) :
    MisfitFree (eval ctx (.literal leaf kind)) m := by
  rw [eval]
  cases kind with
  | string =>
    refine MisfitFree.bind (misfitFree_get_bind ?_) fun _ _ _ => misfitFree_pure _
    split
    · exact misfitFree_pure _
    · exact misfitFree_modifyGet _
  | _ => exact misfitFree_pure _

/-- A literal has a value of its type, if no other type was written down for it. -/
theorem typed_literal (ctx : Context) (W : Machine → Prop) {A : Analysis → Prop} {leaf : Leaf}
    {kind : LiteralKind}
    (hannotations : ∀ a, A a → ∀ t ∈ a.annotations[leaf.slot]?, t = kind.ctype) :
    Typed ctx W A (.literal leaf kind) where
  free _ _ := misfitFree_literal ctx leaf kind
  inhabits m v m' _ hv a t a' ha ht := by
    have hannotated : t = kind.ctype := by
      rw [Check.exprType] at ht
      obtain ⟨_, _, hget, ht, -⟩ := Traced.exec_bind_eq_ok ht
      cases hget
      cases hknown : a.annotations[leaf.slot]? with
      | some known =>
        rw [hknown] at ht
        cases ht
        exact hannotations a ha t hknown
      | none =>
        rw [hknown] at ht
        cases ht
        rfl
    subst hannotated
    rw [eval] at hv
    cases kind with
    | string =>
      obtain ⟨handle, _, -, hv, -⟩ := Traced.exec_bind_eq_ok hv
      cases hv
      exact ⟨_, rfl⟩
    | char => cases hv; rfl
    | integer size signed radix => cases hv; cases size <;> rfl
    | _ => cases hv; rfl

/-- A string literal of plain characters in the first line of a text. -/
def sampleString (text : String) (id column slot : Nat) : Expr :=
  let parts := [⟨.quotes, "\"", ⟨1, column⟩⟩, ⟨.literal .string, text, ⟨1, column + 1⟩⟩,
    ⟨.quotes, "\"", ⟨1, column + 1 + text.length⟩⟩]
  .literal ⟨⟨⟨.literal .string, "\"" ++ text ++ "\"", ⟨1, column⟩, parts⟩, id⟩, slot⟩ .string

/-- The declaration `int s[2][3]={{99},"ab"}`. -/
def mixedRows : Declarator where
  type := Program.sampleInt 1 0
  name := Program.sampleName "s" 2 5 1
  dims := [.sized (Program.sampleNumber "2" 4 7 2), .sized (Program.sampleNumber "3" 6 10 3)]
  init := some (.list (.list (Program.sampleNumber "99" 10 15 4) [])
    [sampleString "ab" 12 19 5])

theorem misfitFree_declarator_rows :
    (∃ a', (Check.declarator mixedRows).exec .start = .ok () a') ∧
      MisfitFree (declarator ⟨fun _ => none, call (fun _ => none) 0⟩ mixedRows) .start := by
  have haccepted : EStateM.run' (Check.declarator mixedRows).exec .start = some () := by cbv
  obtain ⟨a', hexec⟩ := Traced.exists_exec_of_run' haccepted
  refine ⟨⟨a', hexec⟩, ?_⟩
  have htyped (leaf : Leaf) (kind : LiteralKind)
      (h : ((Check.declarator mixedRows).states .start).all
        fun a => a.annotations[leaf.slot]?.all (· = kind.ctype)) :
      Typed ⟨fun _ => none, call (fun _ => none) 0⟩
        (· ∈ (declarator ⟨fun _ => none, call (fun _ => none) 0⟩ mixedRows).states .start)
        (· ∈ (Check.declarator mixedRows).states .start) (.literal leaf kind) := by
    refine typed_literal _ _ fun a ha t ht => ?_
    exact of_decide_eq_true ((Option.all_eq_true _ _).mp (List.all_eq_true.mp h a ha) t ht)
  have htype : Analysis.start.structs.typeOf mixedRows.type.words = .ok .int := by cbv
  refine misfitFree_declarator hexec rfl htype rfl ?_ ?_ ?_
  · rintro name t - ⟨⟩
  · intro size hsize s _
    simp only [mixedRows, List.mem_cons, Dim.sized.injEq, List.not_mem_nil, or_false] at hsize
    rcases hsize with rfl | rfl <;> exact misfitFree_literal _ _ _
  · intro item hitem
    rcases List.mem_cons.mp hitem with rfl | hitem
    · exact htyped _ _ (by cbv)
    · obtain rfl := List.mem_singleton.mp hitem
      exact htyped _ _ (by cbv)

end Run

/-! ## Strings as rows -/

namespace Program

/-- The program `int main(){char s[2][3]={"ab","cd"};printf(s[0]);return 0;}`. -/
def stringRows : Program where
  items := [
    .function (sampleInt 1 0) (sampleName "main" 2 5 1) [] [
      .line [.declare ⟨⟨⟨sampleToken .typeKeyword "char" 6 12, [], 2⟩, sampleName "s" 7 17 3,
        [.sized (sampleNumber "2" 9 19 4), .sized (sampleNumber "3" 11 22 5)],
        some (.list (Run.sampleString "ab" 13 26 6) [Run.sampleString "cd" 15 31 7])⟩, []⟩],
      .line [.expr (.call (.identifier (sampleName "printf" 18 38 8))
        [.index (.identifier (sampleName "s" 7 45 9)) (sampleNumber "0" 19 47 10)])],
      .line [.return (some (sampleNumber "0" 19 58 11))]]]

/-- Not every accepted initializer can be stored: the analysis accepts two strings as the rows of an
array of characters, and a run takes them for two characters. -/
theorem not_misfitFree_declarator :
    stringRows.Accepted ∧
      (stringRows.run (fun _ => none) 100).1 =
        .error (.fault (.invalidNumeric (.pointer ⟨4, 0, some .char⟩)) (some ⟨1, 26⟩)) := by
  have haccepted : stringRows.Accepted := by
    unfold Accepted
    cbv
  exact ⟨haccepted, by decide +kernel⟩

end Program

end MiniC
