import MiniC.Proofs.Kinds.Conversions
import MiniC.Proofs.Recorded

set_option autoImplicit false

/-! # Values that do not fit

A run stops if a value does not fit the place that it is meant for: a list for something that is
neither an array nor a struct, an array that is initialized by neither a list nor a string, or a
value of another kind than the type of its place. Making places, reading and copying values, and
putting them into slots is never stopped for such a reason; only the conversion of a value to the
type of its place is. -/

namespace MiniC

/-- Whether a fault is about a value, or a list, that does not fit its place. -/
def Fault.isMisfit : Fault → Bool
  | .listForScalar | .listNeeded => true
  | .invalidNumeric _ | .invalidPointer _ | .invalidStruct _ => true
  | _ => false

/-- Whether a run stops because something does not fit its place. -/
def Stop.isMisfit : Stop → Bool
  | .fault cause _ => cause.isMisfit
  | _ => false

/-! ## Buffers -/

namespace Arena

variable {a : Arena} {p : Pointer} {cause : Fault}

theorem isMisfit_of_locate (h : a.locate p = .error cause) : cause.isMisfit = false := by
  unfold locate at h
  split at h
  · cases h; rfl
  · split at h
    · cases h; rfl
    · split at h
      · cases h
      · cases h; rfl

theorem isMisfit_of_load (h : a.load p = .error cause) : cause.isMisfit = false := by
  unfold load at h
  cases hlocate : a.locate p with
  | error e =>
    rw [hlocate] at h
    cases h
    exact isMisfit_of_locate hlocate
  | ok found =>
    rw [hlocate] at h
    dsimp only [bind, Except.bind] at h
    split at h
    · cases h; rfl
    · cases h

theorem isMisfit_of_contents {handle : Nat} (h : a.contents handle = .error cause) :
    cause.isMisfit = false := by
  unfold contents at h
  split at h
  · cases h; rfl
  · cases h

end Arena

theorem Value.isMisfit_of_zeroScalar {t : CType} {cause : Fault}
    (h : zeroScalar t = .error cause) : cause.isMisfit = false := by
  unfold zeroScalar at h
  split_ifs at h
  cases h
  rfl

namespace Run

variable {α β γ : Type} {m : Machine}

/-! ## Runs without misfits -/

/-- Whether a run that starts in a state is not stopped because something does not fit its
place. -/
def MisfitFree (x : Run α) (m : Machine) : Prop :=
  ∀ stop t, x.exec m = .error stop t → stop.isMisfit = false

theorem misfitFree_pure (a : α) : MisfitFree (pure a : Run α) m := by
  rintro stop t ⟨⟩

theorem misfitFree_throw {stop : Stop} (h : stop.isMisfit = false) :
    MisfitFree (throw stop : Run α) m := by
  rintro _ t ⟨⟩
  exact h

theorem misfitFree_failAt {cause : Fault} {pos : Position} (h : cause.isMisfit = false) :
    MisfitFree (failAt cause pos : Run α) m :=
  misfitFree_throw h

theorem misfitFree_liftAt {pos : Option Position} {x : Except Fault α}
    (h : ∀ cause, x = .error cause → cause.isMisfit = false) : MisfitFree (liftAt pos x) m := by
  cases x with
  | ok a => exact misfitFree_pure a
  | error cause => exact misfitFree_throw (h cause rfl)

theorem misfitFree_modify (f : Machine → Machine) : MisfitFree (modify f) m := by
  rintro stop t ⟨⟩

theorem misfitFree_modifyGet (f : Machine → α × Machine) : MisfitFree (modifyGet f : Run α) m := by
  rintro stop t ⟨⟩

theorem MisfitFree.bind {x : Run α} {f : α → Run β} (hx : MisfitFree x m)
    (hf : ∀ a t, x.exec m = .ok a t → MisfitFree (f a) t) : MisfitFree (x >>= f) m := by
  intro stop u h
  cases hexec : x.exec m with
  | ok a t =>
    rw [Traced.exec_bind_of_ok f hexec] at h
    exact hf a t hexec stop u h
  | error stop' t =>
    rw [Traced.exec_bind_of_error f hexec] at h
    cases h
    exact hx _ _ hexec

theorem misfitFree_get_bind {f : Machine → Run α} (h : MisfitFree (f m) m) :
    MisfitFree (get >>= f) m :=
  h

theorem misfitFree_mapList {f : α → Run β} {l : List α} (h : ∀ a ∈ l, ∀ m, MisfitFree (f a) m)
    (m : Machine) : MisfitFree (l.mapM f) m := by
  induction l generalizing m with
  | nil =>
    rw [List.mapM_nil]
    exact misfitFree_pure []
  | cons a l ih =>
    obtain ⟨ha, hl⟩ := List.forall_mem_cons.mp h
    rw [List.mapM_cons]
    refine (ha m).bind fun b t _ => ?_
    exact (ih hl t).bind fun bs u _ => misfitFree_pure _

theorem misfitFree_mapArray {f : α → Run β} {l : Array α} (h : ∀ a ∈ l, ∀ m, MisfitFree (f a) m)
    (m : Machine) : MisfitFree (l.mapM f) m := by
  rw [Array.mapM_eq_mapM_toList, ← bind_pure_comp]
  refine (misfitFree_mapList (fun a ha => h a (Array.mem_toList_iff.mp ha)) m).bind fun bs t _ => ?_
  exact misfitFree_pure _

/-! ## Slots -/

theorem misfitFree_load (p : Pointer) : MisfitFree (load p) m :=
  misfitFree_get_bind (misfitFree_liftAt fun _ => Arena.isMisfit_of_load)

theorem misfitFree_store (p : Pointer) (v : Value) : MisfitFree (store p v) m := by
  refine misfitFree_get_bind ?_
  exact (misfitFree_liftAt fun _ => Arena.isMisfit_of_locate).bind fun _ _ _ => misfitFree_modify _

theorem misfitFree_storeAll (p : Pointer) (values : List Value) :
    MisfitFree (storeAll p values) m := by
  induction values generalizing p m with
  | nil => exact misfitFree_pure ()
  | cons v values ih => exact (misfitFree_store p v).bind fun _ _ _ => ih (p.moved 1)

theorem misfitFree_rowAt (slot : Pointer) : MisfitFree (rowAt slot) m := by
  refine (misfitFree_load slot).bind fun v _ _ => ?_
  cases v with
  | pointer row => exact misfitFree_pure row
  | _ => exact misfitFree_throw rfl

theorem misfitFree_fillString (array : Pointer) (size : Nat) (token : Token) :
    MisfitFree (fillString array size token) m := by
  unfold fillString
  split
  · exact misfitFree_failAt rfl
  · exact misfitFree_storeAll array _

/-! ## New values -/

theorem misfitFree_newRecord (record : Record) : MisfitFree (newRecord record) m :=
  (misfitFree_modifyGet _).bind fun _ _ _ => misfitFree_pure _

theorem misfitFree_makeValues {make : Run Value} (hmake : ∀ m, MisfitFree make m) (n : Nat)
    (made : Array Value) (m : Machine) : MisfitFree (makeValues make n made) m := by
  induction n generalizing made m with
  | zero => exact misfitFree_pure made
  | succ n ih => exact (hmake m).bind fun v t _ => ih (made.push v) t

theorem misfitFree_newArrayOf (owned : Bool) (elem : CType) {make : Run Value}
    (hmake : ∀ m, MisfitFree make m) (sizes : List Nat) (m : Machine) :
    MisfitFree (newArrayOf owned elem make sizes) m := by
  induction sizes generalizing m with
  | nil => exact (misfitFree_modifyGet _).bind fun _ _ _ => misfitFree_pure _
  | cons n sizes ih =>
    cases sizes with
    | nil =>
      refine (misfitFree_makeValues hmake n #[] m).bind fun values t _ => ?_
      exact (misfitFree_modifyGet _).bind fun _ _ _ => misfitFree_pure _
    | cons size sizes =>
      rw [newArrayOf]
      refine (misfitFree_makeValues (fun m => ?_) n #[] m).bind fun rows t _ => ?_
      · exact (ih m).bind fun _ _ _ => misfitFree_pure _
      · exact (misfitFree_modifyGet _).bind fun _ _ _ => misfitFree_pure _

theorem misfitFree_elementType (t : CType) (bounds : List Nat) :
    MisfitFree (elementType t bounds) m := by
  unfold elementType
  split
  · exact misfitFree_throw rfl
  · exact misfitFree_pure _

theorem misfitFree_zeroWithin (depth : Nat) (t : CType) (m : Machine) :
    MisfitFree (zeroWithin depth t) m := by
  induction depth generalizing t m with
  | zero =>
    rw [zeroWithin]
    split
    · exact misfitFree_throw rfl
    · exact misfitFree_liftAt fun _ => Value.isMisfit_of_zeroScalar
  | succ depth ih =>
    rw [zeroWithin]
    split
    · refine misfitFree_get_bind ?_
      refine (misfitFree_mapList (fun field _ m => ?_) m).bind fun _ _ _ => misfitFree_newRecord _
      cases field.bounds with
      | none => exact (ih field.type m).bind fun _ _ _ => misfitFree_pure _
      | some dims =>
        refine (misfitFree_elementType field.type dims).bind fun elem t _ => ?_
        exact (misfitFree_newArrayOf false elem (ih elem) dims t).bind fun _ _ _ =>
          misfitFree_pure _
    · exact misfitFree_liftAt fun _ => Value.isMisfit_of_zeroScalar

theorem misfitFree_zeroValue (t : CType) (m : Machine) : MisfitFree (zeroValue t) m :=
  misfitFree_get_bind (misfitFree_zeroWithin _ t m)

theorem misfitFree_newArray (owned : Bool) (elem : CType) (sizes : List Nat) :
    MisfitFree (newArray owned elem sizes) m :=
  misfitFree_newArrayOf owned elem (misfitFree_zeroValue elem) sizes m

/-! ## Copies -/

theorem misfitFree_copyWithin (depth rank : Nat) (v : Value) (m : Machine) :
    MisfitFree (copyWithin depth rank v) m := by
  induction depth generalizing rank v m with
  | zero =>
    cases v with
    | record id => exact misfitFree_throw rfl
    | pointer p =>
      cases rank with
      | zero => exact misfitFree_pure _
      | succ rank => exact misfitFree_throw rfl
    | _ => exact misfitFree_pure _
  | succ depth ih =>
    cases v with
    | record id =>
      refine misfitFree_get_bind ?_
      refine (misfitFree_mapList (fun field _ m => ?_) m).bind fun _ _ _ => misfitFree_newRecord _
      exact (ih _ field.2 m).bind fun _ _ _ => misfitFree_pure _
    | pointer p =>
      cases rank with
      | zero => exact misfitFree_pure _
      | succ rank =>
        refine misfitFree_get_bind ?_
        refine (misfitFree_liftAt fun _ => Arena.isMisfit_of_contents).bind fun values t _ => ?_
        refine (misfitFree_mapArray (fun v _ => ih rank v) t).bind fun copies u _ => ?_
        exact (misfitFree_modifyGet _).bind fun _ _ _ => misfitFree_pure _
    | _ => exact misfitFree_pure _

theorem misfitFree_copy (v : Value) : MisfitFree (copy v) m :=
  misfitFree_get_bind (misfitFree_copyWithin _ 0 v m)

/-! ## Types and variables -/

theorem misfitFree_typeOfValue (pos : Option Position) (v : Value) :
    MisfitFree (typeOfValue pos v) m := by
  cases v with
  | int | float | double => exact misfitFree_pure _
  | pointer p =>
    rw [typeOfValue]
    split
    · exact misfitFree_throw rfl
    · exact misfitFree_pure _
  | record id =>
    refine misfitFree_get_bind (misfitFree_liftAt fun cause h => ?_)
    cases htype : m.structs.typeOf ["struct", (m.records.get id).tag] with
    | ok t =>
      rw [htype] at h
      cases h
    | error e =>
      rw [htype] at h
      cases h
      rfl
  | function name => exact misfitFree_throw rfl

theorem misfitFree_resolve (known : Nat → Option CType) (name : TypeName) :
    MisfitFree (resolve known name) m := by
  have hnamed : MisfitFree (typeNamed name) m := by
    refine misfitFree_get_bind ?_
    split
    · exact misfitFree_failAt rfl
    · exact misfitFree_pure _
  unfold resolve
  split
  · exact hnamed
  · split
    · exact misfitFree_pure _
    · exact hnamed

theorem misfitFree_declaredType (known : Nat → Option CType) (d : Declarator) :
    MisfitFree (declaredType known d) m :=
  (misfitFree_resolve known d.type).bind fun _ _ _ => misfitFree_pure _

theorem misfitFree_introduce (name : Leaf) (t : CType) (v : Value) :
    MisfitFree (introduce name t v) m := by
  refine (misfitFree_modify _).bind fun _ t _ => ?_
  rintro stop u ⟨⟩

/-! ## Runs through known states -/

/-- Whether a run that starts in a state is not stopped because something does not fit its place, as
long as `W` holds in all states that it passes through. -/
def MisfitFreeIn (W : Machine → Prop) (x : Run α) (m : Machine) : Prop :=
  (∀ u ∈ x.states m, W u) → MisfitFree x m

variable {W : Machine → Prop}

theorem MisfitFree.within {x : Run α} (hx : MisfitFree x m) : MisfitFreeIn W x m :=
  fun _ => hx

theorem MisfitFreeIn.bind {x : Run α} {f : α → Run β} (hrecorded : Traced.Recorded x)
    (hx : W m → MisfitFreeIn W x m)
    (hf : ∀ a t, x.exec m = .ok a t → W m → MisfitFreeIn W (f a) t) :
    MisfitFreeIn W (x >>= f) m := by
  intro hW
  have hm : W m := hW m (Traced.mem_states_start _ m)
  refine MisfitFree.bind ?_ fun a t h => ?_
  · exact hx hm fun u hu => hW u (hrecorded.states_subset_bind f hu)
  · exact hf a t h hm fun u hu => hW u (hrecorded.states_subset_of_ok f h hu)

end Run

end MiniC
