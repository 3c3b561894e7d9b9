import MiniC.Proofs.Ranges.Domain
import MiniC.Proofs.Ranges.Integers
import MiniC.Run.Program

set_option autoImplicit false

/-! # Making, copying and computing values in a domain

What a domain has to admit for the runs of a program to stay in it, and the runs that make, copy,
read, write and compute values, and stay in it then. -/

namespace MiniC

/-! ## The locations that values name -/

namespace Value

theorem location?_zeroScalar {t : CType} {v : Value} (h : zeroScalar t = .ok v) {l : Location}
    (hl : l ∈ v.location?) : l = .buffer 0 := by
  unfold zeroScalar at h
  split at h
  · cases h
    cases hl
    rfl
  · split at h
    · split at h <;> cases h <;> cases hl
    · split at h
      · cases h
        cases hl
      · cases h

theorem location?_toPointer {t : CType} {v w : Value} (h : v.toPointer t = .ok w) {l : Location}
    (hl : l ∈ w.location?) : l = .buffer 0 ∨ l ∈ v.location? := by
  cases v with
  | pointer p =>
    cases h
    exact .inr hl
  | int n =>
    rw [toPointer] at h
    split at h
    · cases h
      cases hl
      exact .inl rfl
    · cases h
  | _ => cases h

theorem location?_toFloating {t : CType} {v w : Value} (h : v.toFloating t = .ok w) :
    w.location? = none := by
  unfold toFloating at h
  split at h
  · cases h
  · split at h <;> cases h <;> rfl

theorem location?_toInteger {t : CType} {v w : Value} (h : v.toInteger t = .ok w) :
    w.location? = none := by
  cases v with
  | int n =>
    cases h
    rfl
  | float x | double x =>
    simp only [toInteger] at h
    split at h
    · cases h
    · cases h
      rfl
  | _ => cases h

/-- A converted value names the location that it named before, or it is a null pointer. -/
theorem location?_convertScalar {t : CType} {v w : Value} (h : v.convertScalar t = .ok w)
    {l : Location} (hl : l ∈ w.location?) : l = .buffer 0 ∨ l ∈ v.location? := by
  unfold convertScalar at h
  split at h
  · cases h
    exact .inr hl
  · split at h
    · exact location?_toPointer h hl
    · split at h
      · rw [location?_toFloating h] at hl
        cases hl
      · rw [location?_toInteger h] at hl
        cases hl

end Value

/-- What an operator computes names a location of one of its operands, if any. -/
theorem Operands.location?_eval {op : ArithOp} {left right v : Value} {operands : Operands}
    (hselect : select op left right = .ok operands) (h : operands.eval op = .ok v) {l : Location}
    (hl : l ∈ v.location?) : l ∈ left.location? ∨ l ∈ right.location? := by
  have hmap : ∀ {β : Type} {x : Except Fault β} {f : β → Value}, x.map f = .ok v →
      (∀ b, (f b).location? = none) → l ∉ v.location? := by
    intro β x f hx hf
    cases x with
    | error cause => cases hx
    | ok b =>
      cases hx
      rw [hf]
      exact Option.not_mem_none l
  have hof := of?_of_select hselect
  cases operands with
  | ints _ _ => exact absurd hl (hmap h fun _ => rfl)
  | singles _ _ => exact absurd hl (hmap h fun _ => rfl)
  | doubles _ _ => exact absurd hl (hmap h fun _ => rfl)
  | pointerInt p n =>
    cases left <;> cases right <;> cases hof
    cases op <;> cases h <;> exact .inl hl
  | intPointer n p =>
    cases left <;> cases right <;> cases hof
    cases op <;> cases h
    exact .inr hl
  | pointers p q =>
    cases op with
    | sub =>
      rw [eval] at h
      split at h <;> cases h
      cases hl
    | _ => cases h

/-! ## Domains of programs -/

/-- Whether a step makes a buffer, and no variable. -/
structure Machine.Makes (m m' : Machine) : Prop where
  arena : ∃ values, m'.arena = (m.arena.alloc values).2
  binds : ∀ b, m'.Binds b → m.Binds b

theorem Machine.makes_alloc (m : Machine) (values : Array Value) : m.Makes (m.alloc values).2 :=
  ⟨⟨values, rfl⟩, fun _ => id⟩

theorem Machine.makes_keepString (m : Machine) (slot : Nat) (values : Array Value) :
    m.Makes (m.keepString slot values).2 :=
  ⟨⟨values, rfl⟩, fun _ => id⟩

theorem Machine.makes_own (m : Machine) (values : Array Value) : m.Makes (m.own values).2 := by
  refine ⟨⟨values, rfl⟩, fun b hb => ?_⟩
  obtain ⟨k, frame, id, hframe, hmem⟩ := hb
  rw [frames_own, Array.getElem?_modify] at hframe
  split at hframe
  · obtain ⟨before, hbefore, rfl⟩ := Option.map_eq_some_iff.mp hframe
    exact ⟨k, before, id, hbefore, hmem⟩
  · exact ⟨k, frame, id, hframe, hmem⟩

/-- What a domain has to admit, and what has to be the same for two ways to find types: all
integers in the range of a type that can be declared, or of the common type of two integers; the
codes of the characters in quoted literals, the sizes of types, numbers of printed characters and
distances of pointers; the pointers that are held and those that
expressions have as their values; the variables that are written by their names; the locations that
are made other than for variables, those of the variables that may be written, and those that string
literals and null pointers have; and a look at all these and at all variables. -/
structure Domain.Admits (D : Domain) (known known' : Nat → Option CType) : Prop where
  within : ∀ n : MachineInt, n.Within 64 → D.ints n
  computed : ∀ a b n : MachineInt, D.ints a → D.ints b →
    n.Within (MachineInt.commonWidth a b) → D.ints n
  quoted : ∀ leaf kind, D.occurs (.expr (.literal leaf kind)) →
    ∀ c ∈ leaf.token.codePoints, D.ints (.ofCode c)
  sized : ∀ name m t n, D.occurs (.expr (.sizeOf name)) → D.states m →
    (Run.resolve known name).exec m = .ok t m → m.structs.size? t = some n →
    D.ints (.plain (Int.ofNat n))
  printed : ∀ m n, D.states m → n ≤ m.output.length → D.ints (.plain (Int.ofNat n))
  distance : ∀ a b, D.pointers a → D.pointers b → a.buffer = b.buffer →
    D.ints ⟨a.index - b.index, 64, true⟩
  held : ∀ m a, D.states m → m.HoldsIn D.shown (.pointer a) → D.pointers a
  yielded : ∀ fuel e m a t, D.occurs (.expr e) → D.states m →
    (∀ moment ∈ (Run.eval ⟨known, Run.call known fuel⟩ e).trace m, D.Meets moment) →
    (Run.eval ⟨known, Run.call known fuel⟩ e).exec m = .ok (.pointer a) t → D.pointers a
  types : ∀ name, D.occurs (.type name) → Run.resolve known name = Run.resolve known' name
  target : ∀ e, D.occurs (.expr e) → ∀ leaf ∈ e.target?, D.targets leaf
  null : D.locations (.buffer 0)
  buffers : ∀ m m', D.states m → D.states m' → m.Makes m' → D.locations (.buffer m.arena.next)
  records : ∀ m record, D.states m → D.states (m.addRecord record).2 →
    D.locations (.record m.records.all.size)
  bound : ∀ leaf m m' b, D.targets leaf → D.uses leaf m → D.states m' →
    m' = m ∨ m.lookup leaf.token.id = none → m'.lookup leaf.token.id = some b →
    D.locations (.buffer b.handle)
  kept : ∀ m slot handle, D.states m → m.strings.lookup slot = some handle →
    D.locations (.buffer handle)
  shows : ∀ l, D.locations l → D.shown l
  seen : ∀ m id b, D.states m → m.lookup id = some b → D.shown (.buffer b.handle)

namespace Run

variable {D : Domain} {known known' : Nat → Option CType}

section

variable (hD : D.Admits known known')

include hD

/-! ## Slots, buffers and struct values -/

theorem knows_of_holds {m : Machine} (hm : D.Good m) {v : Value} (hv : m.HoldsIn D.shown v) :
    D.Knows v := by
  cases v with
  | int n => exact hm.held _ hv
  | pointer a => exact ⟨hD.held m a hm.state hv, hm.held _ hv⟩
  | record id => exact hm.held _ hv
  | _ => trivial

theorem stays_load {p : Pointer} (hp : D.shown (.buffer p.buffer)) : Stays D (load p) D.Knows :=
  stays_get.bind fun _ hm => stays_lift fun _ hv =>
    knows_of_holds hD hm (.inl (Arena.holdsIn_of_load hv hp))

omit hD in
theorem stays_store {p : Pointer} (hp : D.locations (.buffer p.buffer)) {v : Value}
    (hv : D.Fits v) : Stays D (store p v) fun _ => True := by
  refine stays_get.bind fun m _ => ?_
  refine (stays_lift (Q := fun _ => p.buffer ≠ 0) fun place hlocate => ?_).bind
    fun _ hbuffer => ?_
  · intro hzero
    have hvalues := Arena.buffer?_of_locate (i := place.2) hlocate
    rw [hzero] at hvalues
    cases hvalues
  · refine stays_modify (fun m _ w hw => ?_) (fun _ => rfl) fun m => .of_put hp hbuffer v
    refine (Machine.holdsIn_put hw).imp_left ?_
    rintro rfl
    exact hv

theorem stays_newBuffer (owned : Bool) {values : Array Value} (hvalues : ∀ v ∈ values, D.Fits v) :
    Stays D (newBuffer owned values) fun handle => D.locations (.buffer handle) := by
  cases owned with
  | true =>
    refine stays_modifyGet (fun m _ w hw => ?_) (fun _ => rfl) (fun _ => .of_alloc rfl rfl)
      fun m hm hstate => hD.buffers m _ hm.state hstate (m.makes_own values)
    exact (Machine.holdsIn_own hw).imp_left (hvalues w)
  | false =>
    refine stays_modifyGet (fun m _ w hw => ?_) (fun _ => rfl) (fun _ => .of_alloc rfl rfl)
      fun m hm hstate => hD.buffers m _ hm.state hstate (m.makes_alloc values)
    exact (Machine.holdsIn_alloc hw).imp_left (hvalues w)

theorem stays_newRecord {record : Record} (hfields : ∀ field ∈ record.fields, D.Fits field.2) :
    Stays D (newRecord record) D.Fits := by
  refine Parallel.bind (P := fun id => D.locations (.record id)) ?_ fun _ hid => stays_pure hid
  refine stays_modifyGet (fun m _ w hw => ?_) (fun _ => rfl) (fun m => .of_addRecord m record)
    fun m hm hstate => hD.records m record hm.state hstate
  refine (Machine.holdsIn_addRecord hw).imp_left ?_
  rintro ⟨name, hname⟩
  exact hfields _ hname

/-! ## New values -/

omit hD in
theorem stays_makeValues {make : Run Value} (hmake : Stays D make D.Fits) (n : Nat)
    {made : Array Value} (hmade : ∀ v ∈ made, D.Fits v) :
    Stays D (makeValues make n made) fun values => ∀ v ∈ values, D.Fits v := by
  induction n generalizing made with
  | zero => exact stays_pure hmade
  | succ n ih =>
    refine hmake.bind fun v hv => ih fun w hw => ?_
    rcases Array.mem_push.mp hw with hw | rfl
    · exact hmade w hw
    · exact hv

theorem stays_newArrayOf (owned : Bool) (elem : CType) {make : Run Value}
    (hmake : Stays D make D.Fits) (sizes : List Nat) :
    Stays D (newArrayOf owned elem make sizes) fun p => D.locations (.buffer p.buffer) := by
  have hnone : ∀ v ∈ (#[] : Array Value), D.Fits v := fun v hv => by simp at hv
  induction sizes with
  | nil => exact (stays_newBuffer hD owned hnone).bind fun _ hhandle => stays_pure hhandle
  | cons n sizes ih =>
    cases sizes with
    | nil =>
      refine (stays_makeValues hmake n hnone).bind fun values hvalues => ?_
      exact (stays_newBuffer hD owned hvalues).bind fun _ hhandle => stays_pure hhandle
    | cons size sizes =>
      rw [newArrayOf]
      have hrow : Stays D (do return .pointer (← newArrayOf owned elem make (size :: sizes)))
          D.Fits := ih.bind fun _ hp => stays_pure hp
      refine (stays_makeValues hrow n hnone).bind fun rows hrows => ?_
      exact (stays_newBuffer hD owned hrows).bind fun _ hhandle => stays_pure hhandle

theorem stays_zeroScalar (t : CType) : Stays D (lift (Value.zeroScalar t)) D.Fits :=
  stays_lift fun _ hv => Domain.fits_of
    (fun n hn => hD.within n (Value.within_zeroScalar (hn ▸ hv)))
    fun _ hl => Value.location?_zeroScalar hv hl ▸ hD.null

omit hD in
theorem stays_elementType (t : CType) (bounds : List Nat) :
    Stays D (elementType t bounds) fun _ => True := by
  unfold elementType
  split
  · exact stays_stop .badBounds fun _ => by decide
  · exact stays_pure trivial

theorem stays_zeroWithin (depth : Nat) (t : CType) : Stays D (zeroWithin depth t) D.Fits := by
  induction depth generalizing t with
  | zero =>
    rw [zeroWithin]
    exact .ite (fun _ => stays_stop .tooDeep fun _ => by decide) fun _ => stays_zeroScalar hD t
  | succ depth ih =>
    rw [zeroWithin]
    refine .ite (fun _ => ?_) fun _ => stays_zeroScalar hD t
    refine stays_get.bind fun m _ => ?_
    refine (Parallel.mapList (R := fun field => D.Fits field.2) fun field _ => ?_).bind
      fun fields hfields => stays_newRecord hD hfields
    cases field.bounds with
    | none => exact (ih field.type).bind fun v hv => stays_pure hv
    | some dims =>
      refine (stays_elementType field.type dims).bind fun elem _ => ?_
      exact (stays_newArrayOf hD false elem (ih elem) dims).bind fun _ hp => stays_pure hp

theorem stays_zeroValue (t : CType) : Stays D (zeroValue t) D.Fits :=
  stays_get.bind fun _ _ => stays_zeroWithin hD _ t

theorem stays_newArray (owned : Bool) (elem : CType) (sizes : List Nat) :
    Stays D (newArray owned elem sizes) fun p => D.locations (.buffer p.buffer) :=
  stays_newArrayOf hD owned elem (stays_zeroValue hD elem) sizes

/-! ## Copies and conversions -/

theorem stays_copyWithin (depth rank : Nat) {v : Value} (hv : D.Fits v) :
    Stays D (copyWithin depth rank v) D.Fits := by
  induction depth generalizing rank v with
  | zero =>
    cases v with
    | record id => exact stays_stop .tooDeep fun _ => by decide
    | pointer p =>
      cases rank with
      | zero => exact stays_pure hv
      | succ rank => exact stays_stop .tooDeep fun _ => by decide
    | _ => exact stays_pure hv
  | succ depth ih =>
    cases v with
    | record id =>
      refine stays_get.bind fun m hm => ?_
      refine (Parallel.mapList (R := fun field => D.Fits field.2) fun field hfield => ?_).bind
        fun fields hfields => stays_newRecord hD hfields
      have hheld : D.Fits field.2 :=
        hm.held _ (.inr (Records.holdsIn_of_get hfield (hD.shows _ hv)))
      exact (ih _ hheld).bind fun v hv => stays_pure hv
    | pointer p =>
      cases rank with
      | zero => exact stays_pure hv
      | succ rank =>
        refine stays_get.bind fun m hm => ?_
        refine (stays_lift fun _ => id).bind fun values hvalues => ?_
        refine (Parallel.mapArray fun w hw => ih rank ?_).bind fun copies hcopies => ?_
        · exact hm.held w (.inl (Arena.holdsIn_of_contents hvalues (hD.shows _ hv) hw))
        · exact (stays_newBuffer hD false hcopies).bind fun _ hhandle => stays_pure hhandle
    | _ => exact stays_pure hv

theorem stays_copy {v : Value} (hv : D.Fits v) : Stays D (copy v) D.Fits :=
  stays_get.bind fun _ _ => stays_copyWithin hD _ 0 hv

omit hD in
theorem stays_typeOfValue (pos : Option Position) (v : Value) :
    Stays D (typeOfValue pos v) fun _ => True := by
  cases v with
  | int | float | double => exact stays_pure trivial
  | pointer p =>
    rw [typeOfValue]
    split
    · exact stays_fail _ _
    · exact stays_pure trivial
  | record id => exact stays_get.bind fun m _ => stays_lift fun _ _ => trivial
  | function name => exact stays_fail _ _

theorem stays_convert (t : CType) {v : Value} (hv : D.Fits v) (pos : Option Position) :
    Stays D (convert t v pos) D.Fits := by
  refine .ite (fun _ => ?_) fun _ => .ite (fun hlarge => ?_) fun _ => stays_liftAt pos fun w hw =>
    Domain.fits_of (fun n hn => ?_) fun l hl => ?_
  · cases v with
    | record id =>
      exact stays_get.bind fun m _ => .ite (fun _ => stays_copy hD hv) fun _ => stays_fail _ _
    | _ => exact stays_fail _ _
  · refine stays_stop .tooLarge fun hsmall => ?_
    rw [hsmall.exceedsFloats hv, Bool.and_false] at hlarge
    cases hlarge
  · subst hn
    rcases Value.within_convertScalar hw with hwithin | rfl
    · exact hD.within n hwithin
    · exact hv
  · rcases Value.location?_convertScalar hw hl with rfl | hl
    · exact hD.null
    · exact hv.location hl

/-! ## Places -/

theorem stays_read {place : Place} (hplace : D.shown place.location) :
    Stays D place.read D.Knows := by
  cases place with
  | slot p => exact stays_load hD hplace
  | field record name type =>
    refine stays_get.bind fun m hm => ?_
    cases hfield : m.records.field? record name with
    | none => exact stays_fail _ _
    | some v =>
      have hheld := Records.holdsIn_of_field? (S := fun id => D.shown (.record id)) hfield hplace
      exact stays_pure (knows_of_holds hD hm (.inr hheld))

omit hD in
theorem stays_setField {record : Nat} (hrecord : D.locations (.record record)) (name : String)
    (type : Option CType) {v : Value} (hv : D.Fits v) :
    Stays D ((Place.field record name type).write v) fun _ => True := by
  refine stays_modify (fun m _ w hw => ?_) (fun _ => rfl) fun _ => .of_setField hrecord name v
  refine (Machine.holdsIn_setField hw).imp_left ?_
  rintro rfl
  exact hv

omit hD in
theorem stays_write {place : Place} (hplace : D.Has place) {v : Value} (hv : D.Fits v) :
    Stays D (place.write v) fun _ => True := by
  cases place with
  | slot p => exact stays_store hplace hv
  | field record name type => exact stays_setField hplace name type hv

omit hD in
theorem stays_address {place : Place} (hplace : D.Has place) : Stays D place.address D.Fits := by
  cases place with
  | slot p => exact stays_pure hplace
  | field record name type => exact stays_fail _ _

theorem stays_fit (place : Place) {v : Value} (hv : D.Fits v) (pos : Option Position) :
    Stays D (place.fit v pos) D.Fits := by
  unfold Place.fit
  cases place.type? with
  | none => exact stays_copy hD hv
  | some t => exact stays_convert hD t hv pos

theorem stays_assign {place : Place} (hplace : D.Has place) {v : Value} (hv : D.Fits v)
    (pos : Option Position) : Stays D (place.assign v pos) D.Knows :=
  (stays_fit hD place hv pos).bind fun _ hfitted =>
    (stays_write hplace hfitted).bind fun _ _ => stays_read hD (hD.shows _ hplace)

theorem stays_variablePlace (name : Token) :
    Stays D (variablePlace name) fun place => D.shown place.location := by
  refine stays_get.bind fun m hm => ?_
  cases hplace : placeOf? m name with
  | none => exact stays_failAt _ _
  | some place =>
    obtain ⟨b, hb, rfl⟩ := Option.map_eq_some_iff.mp hplace
    exact stays_pure (hD.seen m _ b hm.state hb)

omit hD in
theorem stays_bindName (id : Nat) (t : CType) {v : Value} (hv : D.Fits v) :
    Stays D (modify fun m : Machine => m.bind id t v) fun _ => True := by
  refine stays_modify (fun m _ w hw => ?_) (fun _ => rfl) fun _ => .of_alloc rfl rfl
  refine (Machine.holdsIn_bind hw).imp_left ?_
  rintro rfl
  exact hv

section

variable {leaf : Leaf} (hleaf : D.targets leaf)

include hleaf

/-- The place of a variable that may be written is one of the domain. -/
theorem has_of_placeOf? {m m' : Machine} (huse : D.uses leaf m) (hm' : D.Good m')
    (hsame : m' = m ∨ m.lookup leaf.token.id = none) {place : Place}
    (h : placeOf? m' leaf.token = some place) : D.Has place := by
  obtain ⟨b, hb, rfl⟩ := Option.map_eq_some_iff.mp h
  exact hD.bound leaf m m' b hleaf huse hm'.state hsame hb

theorem stays_targetPlace : Stays D (do
    Traced.note (.use leaf)
    variablePlace leaf.token) D.Has := by
  refine stays_use fun m hm huse => ?_
  cases hplace : placeOf? m leaf.token with
  | none => exact stays_failAt _ _
  | some place => exact stays_pure (has_of_placeOf? hD hleaf huse hm (.inl rfl) hplace)

theorem stays_targetFor (v : Value) : Stays D (do
    Traced.note (.use leaf)
    variableFor leaf.token v) D.Has := by
  refine stays_use fun m hm huse => ?_
  cases hplace : placeOf? m leaf.token with
  | some place => exact stays_pure (has_of_placeOf? hD hleaf huse hm (.inl rfl) hplace)
  | none =>
    have hnone : m.lookup leaf.token.id = none := Option.map_eq_none_iff.mp hplace
    refine (stays_typeOfValue _ v).bind fun t _ => (stays_zeroValue hD t).bind fun zero hzero => ?_
    refine (stays_bindName _ t hzero).bind fun _ _ => stays_get.bind fun m' hm' => ?_
    cases hplace' : placeOf? m' leaf.token with
    | none => exact stays_failAt _ _
    | some place => exact stays_pure (has_of_placeOf? hD hleaf huse hm' (.inr hnone) hplace')

end

omit hD in
theorem stays_target (pos : Position) {v : Value} (hv : D.Fits v) :
    Stays D (target pos v) D.Has := by
  cases v with
  | pointer p => exact stays_pure hv
  | _ => exact stays_failAt _ _

omit hD in
theorem stays_element (pos : Position) {v : Value} (hv : D.Fits v) (i : Value) :
    Stays D (element pos v i) D.Has := by
  cases v with
  | pointer p =>
    cases i with
    | int n => exact stays_pure hv
    | _ => exact stays_failAt _ _
  | _ => exact stays_failAt _ _

omit hD in
theorem stays_member (pos : Position) (field : Token) {v : Value} (hv : D.Fits v) :
    Stays D (member pos field v) D.Has := by
  cases v with
  | record id =>
    refine stays_get.bind fun m _ => ?_
    dsimp only
    split
    · exact stays_failAt _ _
    · exact stays_pure hv
  | _ => exact stays_failAt _ _

theorem stays_arrow (pos : Position) (field : Token) {v : Value} (hv : D.Fits v) :
    Stays D (arrow pos field v) D.Has := by
  cases v with
  | pointer p =>
    exact (stays_load hD (hD.shows _ hv)).bind fun v hv => stays_member pos field hv.fits
  | _ => exact stays_failAt _ _

/-! ## Types -/

omit hD in
theorem still_resolve (known : Nat → Option CType) (name : TypeName) :
    Still (resolve known name) := by
  have hnamed : Still (typeNamed name) := by
    refine still_get.bind fun m => ?_
    split
    · exact still_stop _
    · exact still_pure _
  unfold resolve
  split
  · exact hnamed
  · split
    · exact still_pure _
    · exact hnamed

omit hD in
theorem stays_resolve (known : Nat → Option CType) (name : TypeName) :
    Stays D (resolve known name) fun _ => True := by
  have hnamed : Stays D (typeNamed name) fun _ => True := by
    refine stays_get.bind fun m _ => ?_
    split
    · exact stays_failAt _ _
    · exact stays_pure trivial
  unfold resolve
  split
  · exact hnamed
  · exact .ite (fun _ => stays_pure trivial) fun _ => hnamed

theorem parallel_resolve {name : TypeName} (hname : D.occurs (.type name)) :
    Parallel D (resolve known name) (resolve known' name) fun _ => True := by
  rw [← hD.types name hname]
  exact stays_resolve known name

theorem stays_sizeNamed {name : TypeName} (hname : D.occurs (.expr (.sizeOf name))) :
    Stays D (sizeNamed known name) D.Fits := by
  refine Parallel.results (P := fun _ => True) ?_ fun m hm v u hv => ?_
  · refine stays_get.bind fun m _ => (stays_resolve known name).bind fun t _ => ?_
    split
    · rename_i e _
      exact stays_stop e.stop fun _ => by cases e <;> nofun
    · exact stays_pure trivial
  · obtain ⟨m', m'', hget, hv, -⟩ := Traced.exec_bind_eq_ok hv
    cases hget
    obtain ⟨t, m', hresolve, hv, -⟩ := Traced.exec_bind_eq_ok hv
    obtain rfl := (still_resolve known name).eq_of_ok hresolve
    split at hv
    · cases hv
    · rename_i n hsize
      cases hv
      exact hD.sized name _ t n hname hm.state hresolve (by rw [StructTable.size?, hsize]; rfl)

/-! ## Operators -/

theorem stays_arith (op : ArithOp) {left right : Value} (hleft : D.Knows left)
    (hright : D.Knows right) (pos : Position) : Stays D (arith op left right pos) D.Fits := by
  refine (stays_liftAt _ fun _ => id).bind fun operands hselect => ?_
  refine .ite (fun hlarge => ?_) fun _ =>
    stays_lift fun v hv => Domain.fits_of (fun n hn => ?_) fun l hl => ?_
  · refine stays_stop .tooLarge fun hsmall => ?_
    rw [hsmall.exceedsFloats hleft.fits, hsmall.exceedsFloats hright.fits, Bool.or_false,
      Bool.and_false] at hlarge
    cases hlarge
  · subst hn
    rcases Operands.within_eval hv with ⟨a, b, rfl, hwithin⟩ | ⟨a, b, rfl, hbuffer, rfl⟩
    · obtain ⟨rfl, rfl⟩ := Operands.select_ints hselect
      exact hD.computed a b n hleft hright hwithin
    · obtain ⟨rfl, rfl⟩ := Operands.select_pointers hselect
      exact hD.distance a b hleft.1 hright.1 hbuffer
  · rcases Operands.location?_eval hselect hv hl with hl | hl
    · exact hleft.fits.location hl
    · exact hright.fits.location hl

omit hD in
theorem stays_truth (v : Value) : Stays D (truth v) fun _ => True :=
  stays_lift fun _ _ => trivial

theorem fits_ofBool (b : Bool) : D.Fits (.ofBool b) :=
  hD.within _ (MachineInt.within_ofBool b)

/-- The one operator that is left out is not one on values. -/
theorem stays_unary {op : UnaryOp} (hop : op ≠ .address) {v : Value} (hv : D.Knows v)
    (pos : Position) : Stays D (unary op v pos) D.Fits := by
  have hzero : Stays D (liftAt (some pos) v.zeroLike) D.Knows := by
    refine stays_liftAt _ fun zero hzero => ?_
    cases v with
    | int n =>
      cases hzero
      exact hD.computed n n _ hv hv (MachineInt.within_zero (MachineInt.width_le_common n n) _)
    | float x => cases hzero; trivial
    | double x => cases hzero; trivial
    | _ => cases hzero
  cases op with
  | negate | plus => exact hzero.bind fun zero hzero => stays_arith hD _ hzero hv pos
  | not => exact (stays_truth v).bind fun b _ => stays_pure (fits_ofBool hD _)
  | complement =>
    cases v with
    | int n => exact stays_pure (hD.computed n n _ hv hv (MachineInt.within_complement n))
    | _ => exact stays_failAt _ _
  | deref =>
    exact (stays_target pos hv.fits).bind fun place hplace =>
      (stays_read hD (hD.shows _ hplace)).imp fun _ => Domain.Knows.fits
  | address => exact absurd rfl hop

theorem stays_step (op : StepOp) {place : Place} (hplace : D.Has place) (pos : Position) :
    Stays D (step op place pos) D.Fits := by
  have hone : D.Knows (.int (.plain 1)) := hD.within _ MachineInt.within_plain_one
  refine (stays_read hD (hD.shows _ hplace)).bind fun old hold => ?_
  refine (stays_arith hD _ hold hone pos).bind fun sum hsum => ?_
  refine (stays_fit hD place hsum _).bind fun new hnew => ?_
  refine (stays_write hplace hnew).bind fun _ _ => ?_
  cases op.fixity with
  | before => exact stays_pure hnew
  | after => exact stays_pure hold.fits

theorem stays_update (op : ArithOp) {place : Place} (hplace : D.Has place) {v : Value}
    (hv : D.Knows v) (pos : Position) : Stays D (update op place v pos) D.Fits := by
  refine (stays_read hD (hD.shows _ hplace)).bind fun old hold => ?_
  refine (stays_arith hD op hold hv pos).bind fun new hnew => ?_
  exact (stays_assign hD hplace hnew _).imp fun _ => Domain.Knows.fits

/-! ## Printing -/

/-- The number of characters that are printed is at most the length of the output then. -/
theorem stays_printed (text : String) : Stays D (do
    modify fun m : Machine => { m with output := m.output ++ text ++ "\n" }
    return .int (.plain (Int.ofNat text.length + 1)) : Run Value) D.Fits := by
  let printed (m : Machine) : Machine := { m with output := m.output ++ text ++ "\n" }
  refine stays_of_step (f := fun m => (.int (.plain (Int.ofNat text.length + 1)), printed m))
    (fun _ => rfl) (fun _ => rfl) (fun m hm hstate => hm.next hstate (fun _ => .inr) rfl)
    (fun _ => .of_same rfl rfl) ?_
  intro m hm hstate
  refine hD.printed _ (text.length + 1) hstate ?_
  have hline : "\n".length = 1 := rfl
  simp only [printed, String.length_append, hline]
  omega

theorem stays_print (v : Value) : Stays D (print v) D.Fits := by
  cases v with
  | pointer p =>
    refine stays_get.bind fun m _ => ?_
    refine (stays_lift (Q := fun _ => True) fun _ _ => trivial).bind fun codes _ => ?_
    exact stays_printed hD _
  | _ => exact stays_get.bind fun m _ => stays_printed hD _

/-! ## Literals -/

theorem fits_quoted {leaf : Leaf} {kind : LiteralKind}
    (hleaf : D.occurs (.expr (.literal leaf kind))) {n : MachineInt}
    (hn : n.Within 64 ∨ ∃ c ∈ leaf.token.codePoints, n = .ofCode c) : D.ints n := by
  rcases hn with hwithin | ⟨c, hc, rfl⟩
  · exact hD.within n hwithin
  · exact hD.quoted leaf kind hleaf c hc

theorem fits_characters {leaf : Leaf} {kind : LiteralKind}
    (hleaf : D.occurs (.expr (.literal leaf kind))) :
    ∀ v ∈ leaf.token.characters, D.Fits v := by
  intro v hv
  obtain ⟨n, rfl, hn⟩ := Lexeme.within_of_mem_characters hv
  exact fits_quoted hD hleaf hn

theorem stays_literal {leaf : Leaf} {kind : LiteralKind}
    (hleaf : D.occurs (.expr (.literal leaf kind))) : Stays D (literal leaf kind) D.Fits := by
  have hvalue : D.Fits (leaf.token.value kind) :=
    Domain.fits_of (fun n hn => fits_quoted hD hleaf (Lexeme.within_value hn)) fun l hl => by
      cases kind <;> cases hl
  cases kind with
  | string =>
    refine Parallel.bind (P := fun handle => D.locations (.buffer handle)) ?_
      fun _ hhandle => stays_pure hhandle
    refine stays_get.bind fun m hm => ?_
    cases hkept : m.strings.lookup leaf.slot with
    | some handle => exact stays_pure (hD.kept m leaf.slot handle hm.state hkept)
    | none =>
      refine stays_modifyGet (fun m _ w hw => ?_) (fun _ => rfl) (fun _ => .of_alloc rfl rfl)
        fun m hm hstate => hD.buffers m _ hm.state hstate (m.makes_keepString leaf.slot _)
      refine (Machine.holdsIn_alloc hw).imp_left fun hmem => ?_
      exact fits_characters hD hleaf w (List.mem_toArray.mp hmem)
  | _ => exact stays_pure hvalue

/-! ## Initializers -/

omit hD in
theorem stays_storeAll {p : Pointer} (hp : D.locations (.buffer p.buffer)) {values : List Value}
    (hvalues : ∀ v ∈ values, D.Fits v) : Stays D (storeAll p values) fun _ => True := by
  induction values generalizing p with
  | nil => exact stays_pure trivial
  | cons v rest ih =>
    obtain ⟨hv, hrest⟩ := List.forall_mem_cons.mp hvalues
    exact (stays_store hp hv).bind fun _ _ => ih (p := p.moved 1) hp hrest

theorem stays_rowAt {slot : Pointer} (hslot : D.shown (.buffer slot.buffer)) :
    Stays D (rowAt slot) fun row => D.locations (.buffer row.buffer) := by
  refine (stays_load hD hslot).bind fun v hv => ?_
  cases v with
  | pointer row => exact stays_pure hv.2
  | _ => exact stays_fail _ _

theorem stays_fillString {array : Pointer} (harray : D.locations (.buffer array.buffer))
    (size : Nat) {leaf : Leaf} {kind : LiteralKind}
    (hleaf : D.occurs (.expr (.literal leaf kind))) :
    Stays D (fillString array size leaf.token) fun _ => True :=
  .ite (fun _ => stays_failAt _ _) fun _ => stays_storeAll harray (fits_characters hD hleaf)

end

end Run

end MiniC
