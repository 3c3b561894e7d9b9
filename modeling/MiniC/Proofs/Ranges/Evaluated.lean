import Mathlib.Data.Option.Basic
import MiniC.Proofs.Ranges.Values

set_option autoImplicit false

/-! # Evaluating expressions and executing declarations in a domain

In contexts in which calls are parallel, so are all evaluations and declarations of a program of the
domain. The induction follows the syntax; that the pointers among the values belong to the domain is
what the domain admits of every expression as a whole. -/

namespace MiniC.Run

variable {D : Domain} {ctx ctx' : Context}

/-- Whether two contexts do the same for the programs of a domain. -/
structure Twins (D : Domain) (ctx ctx' : Context) : Prop extends
    D.Admits ctx.known ctx'.known where
  calls : ∀ f args pos, D.Covers f.code → (∀ v ∈ args, D.Fits v) →
    Parallel D (ctx.call f args pos) (ctx'.call f args pos) fun result => ∀ v ∈ result, D.Fits v
  pointers : ∀ e m a t, D.occurs (.expr e) → D.states m →
    (∀ moment ∈ (eval ctx e).trace m, D.Meets moment) →
    (eval ctx e).exec m = .ok (.pointer a) t → D.pointers a

section

variable (h : Twins D ctx ctx')

include h

/-! ## Expressions -/

/-- The value of an expression that fits is known. -/
theorem parallel_knows {e : Expr} (he : D.occurs (.expr e))
    (hfits : Parallel D (eval ctx e) (eval ctx' e) D.Fits) :
    Parallel D (eval ctx e) (eval ctx' e) D.Knows := by
  refine ⟨fun m hm hmeets => ?_, hfits.fares⟩
  obtain ⟨hexec, htrace, hlast, hresult, hlarge⟩ := hfits.together m hm hmeets
  refine ⟨hexec, htrace, hlast, fun v t hok => ?_, hlarge⟩
  cases v with
  | int n | record id => exact hresult _ t hok
  | pointer a => exact ⟨h.pointers e m a t he hm.state hmeets hok, hresult _ t hok⟩
  | _ => trivial

theorem parallel_invoke (callee : Expr) {first first' : Option (Run Value)}
    {args args' : Run (List Value)}
    (hfirst : Option.Rel (fun x y => Parallel D x y D.Knows) first first')
    (hargs : Parallel D args args' fun values => ∀ v ∈ values, D.Fits v) :
    Parallel D (invoke ctx callee first args) (invoke ctx' callee first' args')
      fun result => ∀ v ∈ result, D.Fits v := by
  cases callee with
  | identifier leaf =>
    refine stays_get.bind fun m hm => ?_
    cases hf : m.functions.lookup leaf.token.id with
    | some f =>
      refine hargs.bind fun values hvalues => h.calls f values _ ?_ hvalues
      exact hm.functions _ (mem_of_lookup hf)
    | none =>
      refine .ite (fun _ => ?_) fun _ => stays_get.bind fun m _ =>
        .ite (fun _ => stays_failAt _ _) fun _ => stays_failAt _ _
      refine Parallel.bind (P := D.Fits) ?_ fun v hv => stays_pure fun w hw => ?_
      · cases hfirst with
        | none => exact stays_failAt _ _
        | some hx => exact hx.bind fun v _ => stays_print h.toAdmits v
      · cases hw
        exact hv
  | _ => exact stays_failAt _ _

end

mutual

theorem parallel_eval (h : Twins D ctx ctx') (e : Expr) (he : D.Covers e.occurrences) :
    Parallel D (eval ctx e) (eval ctx' e) D.Knows := by
  refine parallel_knows h (he _ e.mem_occurrences_self) ?_
  cases e with
  | identifier leaf =>
    rw [eval, eval]
    refine (stays_note _).bind fun _ _ => ?_
    refine (stays_variablePlace h.toAdmits _).bind fun place hplace => ?_
    exact (stays_read h.toAdmits hplace).imp fun _ => Domain.Knows.fits
  | literal leaf kind =>
    rw [eval, eval]
    exact stays_literal h.toAdmits (he _ List.mem_cons_self)
  | parens e =>
    simp only [Expr.occurrences, Domain.covers_cons] at he
    rw [eval, eval]
    exact (parallel_eval h e he.2).imp fun _ => Domain.Knows.fits
  | unary op e =>
    simp only [Expr.occurrences, Domain.covers_cons] at he
    by_cases hop : op = .address
    · subst hop
      rw [eval, eval]
      exact (parallel_place h none e he.2 (h.target _ he.1)).bind fun place hplace =>
        stays_address hplace
    · rw [eval, eval]
      · exact (parallel_eval h e he.2).bind fun v hv => stays_unary h.toAdmits hop hv _
      · exact hop
      · exact hop
  | step op e =>
    simp only [Expr.occurrences, Domain.covers_cons] at he
    rw [eval, eval]
    exact (parallel_place h none e he.2 (h.target _ he.1)).bind fun place hplace =>
      stays_step h.toAdmits op hplace _
  | binary op left right =>
    simp only [Expr.occurrences, Domain.covers_cons, Domain.covers_append] at he
    obtain ⟨-, hleft, hright⟩ := he
    have heval := parallel_eval h left hleft
    have heval' := parallel_eval h right hright
    cases op with
    | arith op =>
      rw [eval, eval]
      refine heval.bind fun l hl => heval'.bind fun r hr => ?_
      exact stays_arith h.toAdmits op hl hr _
    | relation op =>
      rw [eval, eval]
      refine heval.bind fun l _ => heval'.bind fun r _ => ?_
      -- What is compared need not fit anywhere: an answer is zero or one whatever the operands are.
      exact (stays_lift fun _ _ => trivial).bind fun b (_ : True) =>
        stays_pure (fits_ofBool h.toAdmits b)
    | logic op =>
      rw [eval, eval]
      refine heval.bind fun l _ => (stays_truth l).bind fun b _ => ?_
      refine .ite (fun _ => stays_pure (fits_ofBool h.toAdmits b)) fun _ => ?_
      exact heval'.bind fun r _ => (stays_truth r).bind fun b _ =>
        stays_pure (fits_ofBool h.toAdmits b)
  | assign op left right =>
    simp only [Expr.occurrences, Domain.covers_cons, Domain.covers_append] at he
    obtain ⟨hself, hleft, hright⟩ := he
    have htarget := h.target _ hself
    cases op with
    | none =>
      rw [eval, eval]
      refine (parallel_eval h right hright).bind fun v hv => ?_
      refine (parallel_place h (some v) left hleft htarget).bind fun place hplace => ?_
      exact (stays_assign h.toAdmits hplace hv.fits _).imp fun _ => Domain.Knows.fits
    | some op =>
      rw [eval, eval]
      refine (parallel_eval h right hright).bind fun v hv => ?_
      exact (parallel_place h none left hleft htarget).bind fun place hplace =>
        stays_update h.toAdmits op hplace hv _
  | conditional cond first second =>
    simp only [Expr.occurrences, Domain.covers_cons, Domain.covers_append] at he
    obtain ⟨-, hcond, hfirst, hsecond⟩ := he
    rw [eval, eval]
    refine (parallel_eval h cond hcond).bind fun v _ => (stays_truth v).bind fun b _ => ?_
    refine .ite (fun _ => ?_) fun _ => ?_
    · exact (parallel_eval h first hfirst).imp fun _ => Domain.Knows.fits
    · exact (parallel_eval h second hsecond).imp fun _ => Domain.Knows.fits
  | call callee args =>
    simp only [Expr.occurrences, Domain.covers_cons, Domain.covers_append] at he
    obtain ⟨-, -, hargs⟩ := he
    rw [eval, eval]
    refine (parallel_invoke h callee ?_ (parallel_evalAll h args hargs)).bind
      fun result hresult => ?_
    -- A call also needs its first argument alone: an undeclared `printf` evaluates no other.
    · cases args with
      | nil => exact .none
      | cons e rest =>
        rw [Expr.occurrences.occurrencesAll, Domain.covers_append] at hargs
        exact .some (parallel_eval h e hargs.1)
    · cases result with
      | none => exact stays_failAt _ _
      | some v => exact stays_pure (hresult v rfl)
  | index base i =>
    simp only [Expr.occurrences, Domain.covers_cons, Domain.covers_append] at he
    obtain ⟨-, hbase, hi⟩ := he
    rw [eval, eval]
    refine (parallel_eval h base hbase).bind fun b hb => (parallel_eval h i hi).bind fun v _ => ?_
    refine (stays_element _ hb.fits v).bind fun place hplace => ?_
    exact (stays_read h.toAdmits (h.shows _ hplace)).imp fun _ => Domain.Knows.fits
  | member e field =>
    simp only [Expr.occurrences, Domain.covers_cons] at he
    rw [eval, eval]
    refine (parallel_eval h e he.2).bind fun v hv =>
      (stays_member _ _ hv.fits).bind fun place hplace => ?_
    exact (stays_read h.toAdmits (h.shows _ hplace)).imp fun _ => Domain.Knows.fits
  | arrow e field =>
    simp only [Expr.occurrences, Domain.covers_cons] at he
    rw [eval, eval]
    refine (parallel_eval h e he.2).bind fun v hv => ?_
    refine (stays_arrow h.toAdmits _ _ hv.fits).bind fun place hplace => ?_
    exact (stays_read h.toAdmits (h.shows _ hplace)).imp fun _ => Domain.Knows.fits
  | sizeOf type =>
    simp only [Expr.occurrences, Domain.covers_cons] at he
    rw [eval, eval, sizeNamed, sizeNamed, ← h.types type he.2.1]
    exact stays_sizeNamed h.toAdmits he.1
  | cast type e =>
    simp only [Expr.occurrences, Domain.covers_cons] at he
    rw [eval, eval]
    refine (parallel_resolve h.toAdmits he.2.1).bind fun t _ => ?_
    exact (parallel_eval h e he.2.2).bind fun v hv => stays_convert h.toAdmits t hv.fits _
  | list head tail =>
    rw [eval, eval]
    exact stays_failAt _ _

theorem parallel_place (h : Twins D ctx ctx') (new : Option Value) (e : Expr)
    (he : D.Covers e.occurrences) (hname : ∀ leaf ∈ e.name?, D.targets leaf) :
    Parallel D (place ctx new e) (place ctx' new e) D.Has := by
  cases e with
  | identifier leaf =>
    cases new with
    | none => exact stays_targetPlace h.toAdmits (hname leaf rfl)
    | some v => exact stays_targetFor h.toAdmits (hname leaf rfl) v
  | parens e =>
    simp only [Expr.occurrences, Domain.covers_cons] at he
    rw [place, place]
    exact parallel_place h new e he.2 hname
  | unary op e =>
    simp only [Expr.occurrences, Domain.covers_cons] at he
    cases op with
    | deref =>
      rw [place, place]
      exact (parallel_eval h e he.2).bind fun v hv => stays_target _ hv.fits
    | _ => exact stays_failAt _ _
  | index base i =>
    simp only [Expr.occurrences, Domain.covers_cons, Domain.covers_append] at he
    obtain ⟨-, hbase, hi⟩ := he
    rw [place, place]
    refine (parallel_eval h base hbase).bind fun b hb => (parallel_eval h i hi).bind fun v _ => ?_
    exact stays_element _ hb.fits v
  | member e field =>
    simp only [Expr.occurrences, Domain.covers_cons] at he
    rw [place, place]
    exact (parallel_eval h e he.2).bind fun v hv => stays_member _ _ hv.fits
  | arrow e field =>
    simp only [Expr.occurrences, Domain.covers_cons] at he
    rw [place, place]
    exact (parallel_eval h e he.2).bind fun v hv => stays_arrow h.toAdmits _ _ hv.fits
  | _ => exact stays_failAt _ _

theorem parallel_evalAll (h : Twins D ctx ctx') (args : List Expr)
    (hargs : D.Covers (Expr.occurrences.occurrencesAll args)) :
    Parallel D (evalAll ctx args) (evalAll ctx' args) fun values => ∀ v ∈ values, D.Fits v := by
  cases args with
  | nil => exact stays_pure (List.forall_mem_nil _)
  | cons e rest =>
    rw [Expr.occurrences.occurrencesAll, Domain.covers_append] at hargs
    rw [evalAll, evalAll]
    refine (parallel_eval h e hargs.1).bind fun v hv => ?_
    refine (parallel_evalAll h rest hargs.2).bind fun values hvalues => stays_pure ?_
    exact List.forall_mem_cons.mpr ⟨hv.fits, hvalues⟩

end

section

variable (h : Twins D ctx ctx')

include h

theorem parallel_evalCall (callee : Expr) (args : List Expr)
    (hargs : D.Covers (Expr.occurrences.occurrencesAll args)) :
    Parallel D (evalCall ctx callee args) (evalCall ctx' callee args)
      fun result => ∀ v ∈ result, D.Fits v := by
  refine parallel_invoke h callee ?_ (parallel_evalAll h args hargs)
  cases args with
  | nil => exact .none
  | cons e rest =>
    rw [Expr.occurrences.occurrencesAll, Domain.covers_append] at hargs
    exact .some (parallel_eval h e hargs.1)

/-! ## Sizes of arrays -/

theorem parallel_sizesOf (needed : Nat) {dims : List Dim}
    (hdims : D.Covers (dims.flatMap Dim.occurrences)) :
    Parallel D (sizesOf (eval ctx) needed dims) (sizesOf (eval ctx') needed dims)
      fun _ => True := by
  induction dims generalizing needed with
  | nil => exact stays_pure trivial
  | cons dim rest ih =>
    rw [List.flatMap_cons, Domain.covers_append] at hdims
    have hrest := ih 0 hdims.2
    cases dim with
    | unsized => exact hrest.bind fun sizes _ => stays_pure trivial
    | sized size =>
      refine (parallel_eval h size hdims.1).bind fun v _ => ?_
      cases v with
      | int n =>
        exact .ite (fun _ => stays_failAt _ _) fun _ => hrest.bind fun sizes _ =>
          stays_pure trivial
      | _ => exact stays_failAt _ _

theorem parallel_arraySizes {d : Declarator} (hd : D.Covers d.outline) (init : Option Expr) :
    Parallel D (arraySizes (eval ctx) d init) (arraySizes (eval ctx') d init) fun _ => True :=
  .ite (fun _ => stays_failAt _ _) fun _ => parallel_sizesOf h _ (Domain.covers_cons.mp hd).2

/-! ## Initializers -/

theorem parallel_itemValue (t : CType) {item : Expr} (hitem : D.Covers item.occurrences) :
    Parallel D (itemValue (eval ctx) t item) (itemValue (eval ctx') t item) D.Fits :=
  (parallel_eval h item hitem).bind fun _ hv => stays_convert h.toAdmits t hv.fits _

theorem parallel_fillFlat {array : Pointer} (harray : D.locations (.buffer array.buffer))
    (elem : CType) (length i : Nat) {items : List Expr}
    (hitems : D.Covers (Expr.occurrences.occurrencesAll items)) :
    Parallel D (fillFlat (eval ctx) array elem length i items)
      (fillFlat (eval ctx') array elem length i items) fun _ => True := by
  induction items generalizing i with
  | nil => exact stays_pure trivial
  | cons item rest ih =>
    rw [Expr.occurrences.occurrencesAll, Domain.covers_append] at hitems
    have hslot : D.shown (.buffer (array.moved (Int.ofNat (i / length))).buffer) :=
      h.shows _ harray
    refine (stays_rowAt h.toAdmits hslot).bind fun row hrow => ?_
    refine (parallel_itemValue h elem hitems.1).bind fun v hv => ?_
    exact (stays_store (p := row.moved _) hrow hv).bind fun _ _ => ih (i + 1) hitems.2

theorem parallel_fillSlot {slot : Pointer} (hslot : D.locations (.buffer slot.buffer))
    (elem : CType) (isRow : Bool) {item : Expr} (hitem : D.Covers item.occurrences)
    {fillRow fillRow' : Pointer → Run Unit} {fillRecord fillRecord' : Nat → Run Unit}
    (hrow : ∀ row : Pointer, D.locations (.buffer row.buffer) →
      Parallel D (fillRow row) (fillRow' row) fun _ => True)
    (hrecord : ∀ id, D.locations (.record id) →
      Parallel D (fillRecord id) (fillRecord' id) fun _ => True) :
    Parallel D (fillSlot (eval ctx) slot elem isRow item fillRow fillRecord)
      (fillSlot (eval ctx') slot elem isRow item fillRow' fillRecord') fun _ => True := by
  refine .ite (fun _ => (stays_rowAt h.toAdmits (h.shows _ hslot)).bind hrow) fun _ => ?_
  refine .ite (fun _ => ?_) fun _ => ?_
  · refine (stays_zeroValue h.toAdmits elem).bind fun v hv => ?_
    cases v with
    | record id => exact (hrecord id hv).bind fun _ _ => stays_store hslot hv
    | _ => exact stays_store hslot hv
  · exact (parallel_itemValue h elem hitem).bind fun v hv => stays_store hslot hv

theorem parallel_fillField {id : Nat} (hid : D.locations (.record id)) (field : Field)
    {item : Expr} (hitem : D.Covers item.occurrences)
    {fillArray fillArray' : Pointer → CType → List Nat → Run Unit}
    (harray : ∀ (array : Pointer) elem sizes, D.locations (.buffer array.buffer) →
      Parallel D (fillArray array elem sizes) (fillArray' array elem sizes) fun _ => True) :
    Parallel D (fillField (eval ctx) id field item fillArray)
      (fillField (eval ctx') id field item fillArray') fun _ => True := by
  unfold fillField
  cases field.bounds with
  | none => exact (parallel_itemValue h _ hitem).bind fun v hv => stays_setField hid _ _ hv
  | some dims =>
    have hplace : D.shown (Place.field id field.name (some field.type)).location := h.shows _ hid
    refine (stays_read h.toAdmits hplace).bind fun v hv => ?_
    cases v with
    | pointer array =>
      exact (stays_elementType field.type dims).bind fun elem _ => harray array elem dims hv.2
    | _ => exact stays_fail _ _

end

mutual

theorem parallel_fillArray (h : Twins D ctx ctx') {array : Pointer}
    (harray : D.locations (.buffer array.buffer)) (elem : CType) (sizes : List Nat) (init : Expr)
    (hinit : D.Covers init.occurrences) :
    Parallel D (fillArray (eval ctx) array elem sizes init)
      (fillArray (eval ctx') array elem sizes init) fun _ => True := by
  by_cases hlist : init.items? = none
  · rw [fillArray_of_not_list _ _ _ _ hlist, fillArray_of_not_list _ _ _ _ hlist]
    -- no expression is evaluated, so the runs are the same one
    change Stays D _ _
    split
    · rename_i token size hstring
      obtain ⟨leaf, rfl, rfl⟩ := string?_eq_some hstring
      exact stays_fillString h.toAdmits harray size (hinit _ List.mem_cons_self)
    · exact stays_failAt _ _
  · cases init with
    | list head tail =>
      simp only [Expr.occurrences, Domain.covers_cons, Domain.covers_append] at hinit
      obtain ⟨-, hhead, htail⟩ := hinit
      rw [fillArray, fillArray]
      refine .ite (fun _ => .ite (fun _ => stays_failAt _ _) fun _ => ?_) fun _ =>
        .ite (fun _ => stays_failAt _ _) fun _ => ?_
      · refine parallel_fillFlat h harray elem _ 0 ?_
        rw [Expr.occurrences.occurrencesAll, Domain.covers_append]
        exact ⟨hhead, htail⟩
      · refine (parallel_fillSlot h harray elem _ hhead ?_ ?_).bind fun _ _ => ?_
        · exact fun row hrow => parallel_fillArray h hrow elem sizes.tail head hhead
        · exact fun id hid => parallel_fillRecord h hid elem head hhead
        · have hnext : D.locations (.buffer (array.moved 1).buffer) := harray
          exact parallel_fillSlots h hnext elem sizes tail htail
    | _ => exact absurd rfl hlist

theorem parallel_fillSlots (h : Twins D ctx ctx') {slot : Pointer}
    (hslot : D.locations (.buffer slot.buffer)) (elem : CType) (sizes : List Nat)
    (items : List Expr) (hitems : D.Covers (Expr.occurrences.occurrencesAll items)) :
    Parallel D (fillSlots (eval ctx) slot elem sizes items)
      (fillSlots (eval ctx') slot elem sizes items) fun _ => True := by
  cases items with
  | nil => exact stays_pure trivial
  | cons item rest =>
    rw [Expr.occurrences.occurrencesAll, Domain.covers_append] at hitems
    obtain ⟨hitem, hrest⟩ := hitems
    rw [fillSlots, fillSlots]
    refine (parallel_fillSlot h hslot elem _ hitem ?_ ?_).bind fun _ _ => ?_
    · exact fun row hrow => parallel_fillArray h hrow elem sizes.tail item hitem
    · exact fun id hid => parallel_fillRecord h hid elem item hitem
    · have hnext : D.locations (.buffer (slot.moved 1).buffer) := hslot
      exact parallel_fillSlots h hnext elem sizes rest hrest

theorem parallel_fillRecord (h : Twins D ctx ctx') {id : Nat} (hid : D.locations (.record id))
    (t : CType) (init : Expr) (hinit : D.Covers init.occurrences) :
    Parallel D (fillRecord (eval ctx) id t init) (fillRecord (eval ctx') id t init)
      fun _ => True := by
  cases init with
  | list head tail =>
    simp only [Expr.occurrences, Domain.covers_cons, Domain.covers_append] at hinit
    obtain ⟨-, hhead, htail⟩ := hinit
    rw [fillRecord, fillRecord]
    refine stays_get.bind fun m _ => .reject fun _ => ?_
    cases m.structs.currentFields t with
    | nil => exact stays_pure trivial
    | cons field fields =>
      refine (parallel_fillField h hid field hhead ?_).bind fun _ _ => ?_
      · exact fun array elem sizes harray => parallel_fillArray h harray elem sizes head hhead
      · exact parallel_fillFields h hid fields tail htail
  | _ => exact stays_pure trivial

theorem parallel_fillFields (h : Twins D ctx ctx') {id : Nat} (hid : D.locations (.record id))
    (fields : List Field) (items : List Expr)
    (hitems : D.Covers (Expr.occurrences.occurrencesAll items)) :
    Parallel D (fillFields (eval ctx) id fields items) (fillFields (eval ctx') id fields items)
      fun _ => True := by
  cases items with
  | nil => cases fields <;> exact stays_pure trivial
  | cons item rest =>
    cases fields with
    | nil => exact stays_pure trivial
    | cons field fields =>
      rw [Expr.occurrences.occurrencesAll, Domain.covers_append] at hitems
      obtain ⟨hitem, hrest⟩ := hitems
      rw [fillFields, fillFields]
      refine (parallel_fillField h hid field hitem ?_).bind fun _ _ => ?_
      · exact fun array elem sizes harray => parallel_fillArray h harray elem sizes item hitem
      · exact parallel_fillFields h hid fields rest hrest

end

/-! ## Declarations -/

theorem stays_introduce (name : Leaf) (t : CType) {v : Value} (hv : D.Fits v) :
    Stays D (introduce name t v) fun _ => True :=
  (stays_bindName _ t hv).bind fun _ _ => stays_note _

section

variable (h : Twins D ctx ctx')

include h

theorem parallel_declaredType {d : Declarator} (hd : D.Covers d.outline) :
    Parallel D (declaredType ctx.known d) (declaredType ctx'.known d) fun _ => True :=
  (parallel_resolve h.toAdmits (hd _ List.mem_cons_self)).bind fun _ _ => stays_pure trivial

theorem parallel_declareArray {d : Declarator} (hd : D.Covers d.occurrences) (elem : CType) :
    Parallel D (declareArray ctx d elem) (declareArray ctx' d elem) fun _ => True := by
  have houtline : D.Covers d.outline := fun o ho => hd o (d.outline_subset ho)
  refine (parallel_arraySizes h houtline d.init).bind fun sizes _ => ?_
  refine (parallel_declaredType h houtline).bind fun t _ => ?_
  refine (stays_newArray h.toAdmits true elem sizes).bind fun array harray => ?_
  simp only [Declarator.occurrences, Domain.covers_cons, Domain.covers_append] at hd
  cases hinit : d.init with
  | none => exact stays_introduce _ t harray
  | some init =>
    rw [hinit, Option.toList_some, List.flatMap_singleton] at hd
    refine (parallel_fillArray h harray elem sizes init hd.2.2).bind fun _ _ => ?_
    exact stays_introduce _ t harray

omit h in
theorem stays_declareZero (hD : D.Admits ctx.known ctx'.known) (d : Declarator) (t : CType) :
    Stays D (declareZero d t) fun _ => True :=
  .reject fun _ => (stays_zeroValue hD t).bind fun _ hv => stays_introduce _ t hv

theorem parallel_fillStruct (t : CType) {init : Expr} (hinit : D.Covers init.occurrences)
    {v : Value} (hv : D.Fits v) :
    Parallel D (fillStruct ctx t init v) (fillStruct ctx' t init v) fun _ => True := by
  cases v with
  | record id => exact parallel_fillRecord h hv t init hinit
  | _ => exact stays_pure trivial

theorem parallel_declareRecord (d : Declarator) (t : CType) {init : Expr}
    (hinit : D.Covers init.occurrences) :
    Parallel D (declareRecord ctx d t init) (declareRecord ctx' d t init) fun _ => True := by
  refine .reject fun _ => (stays_zeroValue h.toAdmits t).bind fun v hv => ?_
  exact (parallel_fillStruct h t hinit hv).bind fun _ _ => stays_introduce _ t hv

theorem parallel_declareValue (d : Declarator) (t : CType) {init : Expr}
    (hinit : D.Covers init.occurrences) :
    Parallel D (declareValue ctx d t init) (declareValue ctx' d t init) fun _ => True := by
  refine (parallel_eval h init hinit).bind fun v hv => ?_
  have hrest : ∀ t : CType, Stays D (do introduce d.name t (← convert t v (some init.pos)))
      fun _ => True := fun t =>
    (stays_convert h.toAdmits t hv.fits _).bind fun w hw => stays_introduce _ t hw
  refine .ite (fun _ => (stays_typeOfValue _ v).bind fun t _ => hrest t) fun _ => ?_
  exact (stays_pure trivial).bind fun t (_ : True) => hrest t

theorem parallel_declarator {d : Declarator} (hd : D.Covers d.occurrences) :
    Parallel D (declarator ctx d) (declarator ctx' d) fun _ => True := by
  refine (parallel_resolve h.toAdmits (hd _ List.mem_cons_self)).bind fun t _ => ?_
  refine .ite (fun _ => parallel_declareArray h hd t) fun _ => ?_
  simp only [Declarator.occurrences, Domain.covers_cons, Domain.covers_append] at hd
  cases hinit : d.init with
  | none => exact stays_declareZero h.toAdmits d t
  | some init =>
    rw [hinit, Option.toList_some, List.flatMap_singleton] at hd
    exact .ite (fun _ => parallel_declareRecord h d t hd.2.2) fun _ =>
      parallel_declareValue h d t hd.2.2

theorem parallel_declaration {d : Declaration} (hd : D.Covers d.occurrences) :
    Parallel D (declaration ctx d) (declaration ctx' d) fun _ => True :=
  .forM fun _ hmem => parallel_declarator h (Domain.covers_flatMap.mp hd _ hmem)

end

end MiniC.Run
