import MiniC.Proofs.Casts

set_option autoImplicit false

/-! # What values say about their types

A value is tagged with its type: an integer with its width and its sign, a floating number with its
precision, a pointer with the type of what it points to, and a struct value with the tag of its
struct. Conversions tag their results with the type that was asked for. Operators tag theirs by the
usual arithmetic conversions, whereas the analysis takes the wider one of the types of the operands:
these agree on floating numbers and on pointers, and on integers where neither is narrow for too
long. -/

namespace MiniC

/-! ## Tags -/

/-- Whether a value, in a state, is tagged as one of a type. -/
def Machine.Tagged (m : Machine) (t : CType) : Value → Prop
  | .int n => t.isInteger ∧ n.width = t.width ∧ n.signed = !t.isUnsigned
  | .float _ => t.isFloating ∧ ¬t.isDouble
  | .double _ => t.isFloating ∧ t.isDouble
  | .pointer p => t.isPointer ∧ p.target.map CType.undeclared = t.pointee?.map CType.undeclared
  | .record id => t.isStruct ∧ t.tag? = some (m.records.get id).tag
  | .function _ => False

namespace CType

variable {s t : CType}

theorem isPointer_writable (t : CType) : t.writable.isPointer = t.isPointer := by
  rcases t with ⟨_, _, _ | _⟩ <;> rfl

theorem pointee?_writable (t : CType) : t.writable.pointee? = t.pointee? := by
  rcases t with ⟨_, _, _ | _⟩ <;> rfl

theorem isStruct_writable (t : CType) : t.writable.isStruct = t.isStruct := by
  rcases t with ⟨_, _, _ | _⟩ <;> rfl

theorem isInteger_writable (t : CType) : t.writable.isInteger = t.isInteger := by
  rcases t with ⟨_, _, _ | _⟩ <;> rfl

theorem isFloating_writable (t : CType) : t.writable.isFloating = t.isFloating := by
  rcases t with ⟨_, _, _ | _⟩ <;> rfl

theorem isDouble_writable (t : CType) : t.writable.isDouble = t.isDouble := by
  rcases t with ⟨_, _, _ | _⟩ <;> rfl

theorem isUnsigned_writable (t : CType) : t.writable.isUnsigned = t.isUnsigned := by
  rcases t with ⟨_, _, _ | _⟩ <;> rfl

theorem width_writable (t : CType) : t.writable.width = t.width := by
  rcases t with ⟨_, _, _ | _⟩ <;> rfl

theorem isVoid_writable (t : CType) : t.writable.isVoid = t.isVoid := by
  rcases t with ⟨_, _, _ | _⟩ <;> rfl

theorem tag?_writable (t : CType) : t.writable.tag? = t.tag? := by
  rcases t with ⟨_, _, _ | _⟩ <;> rfl

/-- A pointer type whose outermost level may be written is that of pointers to what it points to. -/
theorem pointer_of_pointee? (h : t.pointee? = some s) : s.pointer = t.writable := by
  unfold pointee? at h
  unfold writable
  split at h
  · cases h
  · rename_i level levels hlevels
    cases h
    rfl

theorem undeclared_pointer (t : CType) : t.pointer.undeclared = t.undeclared.pointer :=
  undeclared_pointers t 1

theorem eq_of_isInteger (h : t.isInteger) :
    ∃ isConst kind unsigned, t = ⟨isConst, .integer kind unsigned, []⟩ := by
  obtain ⟨isConst, base, levels⟩ := t
  cases levels with
  | nil =>
    cases base with
    | integer kind unsigned => exact ⟨_, _, _, rfl⟩
    | _ => cases h
  | cons level levels => cases h

theorem eq_of_isFloating (h : t.isFloating) : ∃ isConst base,
    t = ⟨isConst, base, []⟩ ∧ (base = .float ∨ base = .double ∨ base = .longDouble) := by
  obtain ⟨isConst, base, levels⟩ := t
  cases levels with
  | nil => cases base <;> cases h <;> exact ⟨_, _, rfl, by simp⟩
  | cons level levels => cases h

theorem eq_of_isStruct (h : t.isStruct) : ∃ isConst tag decl,
    t = ⟨isConst, .struct tag decl, []⟩ := by
  obtain ⟨isConst, base, levels⟩ := t
  cases levels with
  | nil =>
    cases base with
    | struct tag decl => exact ⟨_, _, _, rfl⟩
    | _ => cases h
  | cons level levels => cases h

end CType

namespace Machine.Tagged

variable {m m' : Machine} {s t : CType} {v : Value}

/-- A tag does not say whether the value may be written over. -/
theorem writable_iff : m.Tagged t.writable v ↔ m.Tagged t v := by
  unfold Tagged
  rw [t.isPointer_writable, t.pointee?_writable, t.isStruct_writable, t.isInteger_writable,
    t.isFloating_writable, t.isUnsigned_writable, t.width_writable, t.isDouble_writable,
    t.tag?_writable]

theorem congr (h : m.Tagged s v) (heq : s.undeclared = t.undeclared) : m.Tagged t v := by
  rcases CType.cases_of_undeclared_eq heq with rfl | ⟨_, tag, decl, decl', levels, rfl, rfl⟩
  · exact h
  · cases v with
    | pointer p =>
      refine ⟨h.1, h.2.trans ?_⟩
      cases levels <;> rfl
    | record id =>
      obtain ⟨hstruct, htag⟩ := h
      cases levels with
      | nil => exact ⟨rfl, htag⟩
      | cons level levels => cases hstruct
    | int n =>
      cases levels <;> cases h.1
    | float x | double x =>
      cases levels <;> cases h.1
    | function name => exact h

/-- What a value that is no struct is tagged with does not depend on the state. -/
theorem of_scalar (h : m.Tagged t v) (hstruct : t.isStruct = false) : m'.Tagged t v := by
  cases v with
  | record id => exact absurd h.1 (by simp [hstruct])
  | _ => exact h

/-- The kind of numbers of a value is the one of its type. -/
theorem numberKind?_eq (h : m.Tagged t v) : t.numberKind? = v.numberKind? := by
  cases v with
  | int n =>
    obtain ⟨_, _, _, rfl⟩ := CType.eq_of_isInteger h.1
    rfl
  | float x =>
    obtain ⟨_, _, rfl, rfl | rfl | rfl⟩ := CType.eq_of_isFloating h.1
    · rfl
    · exact absurd rfl h.2
    · exact absurd rfl h.2
  | double x =>
    obtain ⟨_, _, rfl, rfl | rfl | rfl⟩ := CType.eq_of_isFloating h.1
    · cases h.2
    · rfl
    · rfl
  | pointer p =>
    obtain ⟨isConst, base, levels⟩ := t
    cases levels with
    | nil => cases h.1
    | cons level levels => rfl
  | record id =>
    obtain ⟨_, _, _, rfl⟩ := CType.eq_of_isStruct h.1
    rfl
  | function name => exact h.elim

/-- A number of the kind of a type is tagged with it, if it has the width and the sign of the type
where it is an integer. -/
theorem of_numberKind? {k : NumberKind} (ht : t.numberKind? = some k)
    (hv : v.numberKind? = some k)
    (hinteger : ∀ n, v = .int n → n.width = t.width ∧ n.signed = !t.isUnsigned) :
    m.Tagged t v := by
  cases v with
  | int n =>
    cases hv
    exact ⟨(CType.isInteger_iff ht).mpr rfl, hinteger n rfl⟩
  | float x =>
    cases hv
    exact ⟨(CType.isFloating_iff ht).mpr nofun, fun h => nomatch (CType.isDouble_iff ht).mp h⟩
  | double x =>
    cases hv
    exact ⟨(CType.isFloating_iff ht).mpr nofun, (CType.isDouble_iff ht).mpr rfl⟩
  | _ => cases hv

end Machine.Tagged

/-- A store to a field leaves the tags of all struct values as they are. -/
theorem Records.tag_setField (r : Records) (id : Nat) (name : String) (v : Value) (id' : Nat) :
    ((r.setField id name v).get id').tag = (r.get id').tag := by
  rw [get, get, setField, Array.getElem?_modify]
  split
  · cases r.all[id']? <;> rfl
  · rfl

namespace Run

variable {m m' : Machine} {t : CType} {v : Value} {pos : Option Position}

/-- A variable that gets its type from a value gets the type that the value is tagged with. No value
says that it has more than double precision. -/
theorem undeclared_eq_of_typeOfValue {u : CType} (hv : m.Tagged t v)
    (hlong : t.base = .longDouble → t.isPointer)
    (hu : (typeOfValue pos v).exec m = .ok u m') : u.undeclared = t.writable.undeclared := by
  cases v with
  | int n =>
    obtain ⟨hinteger, hwidth, hsigned⟩ := hv
    obtain ⟨isConst, kind, unsigned, rfl⟩ := CType.eq_of_isInteger hinteger
    cases hu
    rw [hwidth, hsigned]
    cases kind <;> cases unsigned <;> rfl
  | float x =>
    cases hu
    obtain ⟨_, _, rfl, rfl | rfl | rfl⟩ := CType.eq_of_isFloating hv.1
    · rfl
    · exact absurd rfl hv.2
    · exact absurd rfl hv.2
  | double x =>
    cases hu
    obtain ⟨_, _, rfl, rfl | rfl | rfl⟩ := CType.eq_of_isFloating hv.1
    · cases hv.2
    · rfl
    -- A `long double` is held with double precision, and would come back as a `double`.
    · cases hlong rfl
  | pointer p =>
    obtain ⟨-, htarget⟩ := hv
    rw [typeOfValue] at hu
    split at hu
    · cases hu
    · rename_i s hs
      cases hu
      rw [hs, Option.map_some] at htarget
      obtain ⟨s', hs', heq⟩ := Option.map_eq_some_iff.mp htarget.symm
      rw [← CType.pointer_of_pointee? hs', CType.undeclared_pointer, CType.undeclared_pointer, heq]
  | record id =>
    obtain ⟨hstruct, htag⟩ := hv
    obtain ⟨isConst, tag, decl, rfl⟩ := CType.eq_of_isStruct hstruct
    cases htag
    obtain ⟨_, _, hget, hu, -⟩ := Traced.exec_bind_eq_ok hu
    cases hget
    cases htype : m.structs.typeOf ["struct", (m.records.get id).tag] with
    | error e =>
      rw [htype] at hu
      cases hu
    | ok s =>
      rw [htype] at hu
      cases hu
      obtain ⟨decl', rfl⟩ := CType.eq_of_ofWords_struct htype
      rfl
  | function name => exact hv.elim

/-! ## Conversions -/

theorem tag_addRecord (m : Machine) (record : Record) :
    ((m.addRecord record).2.records.get (m.addRecord record).1).tag = record.tag := by
  simp [Machine.addRecord, Records.add, Records.get]

/-- A copy of a struct value has the same tag. -/
theorem tag_of_copy {id : Nat} {w : Value} (h : (copy (.record id)).exec m = .ok w m') :
    ∃ id', w = .record id' ∧ (m'.records.get id').tag = (m.records.get id).tag := by
  obtain ⟨_, _, hget, h, -⟩ := Traced.exec_bind_eq_ok h
  cases hget
  cases hdepth : (m.structs.largestRank + 1) * (m.records.all.size + 1) with
  | zero =>
    rw [hdepth] at h
    cases h
  | succ depth =>
    rw [hdepth] at h
    obtain ⟨fields, m₂, -, rfl, rfl⟩ := exec_copyWithin_record h
    exact ⟨_, rfl, tag_addRecord _ _⟩

/-- A number that is converted to a type of numbers is tagged with it. -/
theorem tagged_of_convertScalar {w : Value} (ht : t.isNumber) (h : v.convertScalar t = .ok w) :
    m.Tagged t w := by
  rw [convertScalar_of_isNumber ht] at h
  split at h
  · rename_i hfloating
    unfold Value.toFloating at h
    split at h
    · cases h
    · cases h
      split
      · rename_i hdouble
        exact ⟨hfloating, hdouble⟩
      · rename_i hsingle
        exact ⟨hfloating, hsingle⟩
  · rename_i hfloating
    have hinteger := CType.isInteger_of_isNumber ht (Bool.eq_false_iff.mpr hfloating)
    cases v with
    | int n =>
      cases h
      exact ⟨hinteger, rfl, rfl⟩
    | float x | double x =>
      simp only [Value.toInteger] at h
      split at h
      · cases h
      · cases h
        exact ⟨hinteger, rfl, rfl⟩
    | _ => cases h

/-- A value that is converted to a pointer type is tagged with it. -/
theorem tagged_of_toPointer {w : Value} (ht : t.isPointer) (h : v.toPointer t = .ok w) :
    m.Tagged t w := by
  cases v with
  | pointer p =>
    cases h
    exact ⟨ht, rfl⟩
  | int n =>
    rw [Value.toPointer] at h
    split at h
    · cases h
      exact ⟨ht, rfl⟩
    · cases h
  | _ => cases h

/-- A value that is converted to a type is tagged with it, unless the type says nothing about its
values. -/
theorem tagged_of_convert {w : Value} (hauto : t.isAuto = false) (hvoid : t.isVoid = false)
    (h : (convert t v pos).exec m = .ok w m') : m'.Tagged t w := by
  cases hstruct : t.isStruct with
  | true =>
    unfold convert at h
    rw [if_pos hstruct] at h
    cases v with
    | record id =>
      obtain ⟨_, _, hget, h, -⟩ := Traced.exec_bind_eq_ok h
      cases hget
      split at h
      · rename_i htag
        obtain ⟨id', rfl, htag'⟩ := tag_of_copy h
        exact ⟨hstruct, htag.trans (congrArg some htag'.symm)⟩
      · cases h
    | _ => cases h
  | false =>
    rw [convert_of_not_struct hstruct] at h
    split at h
    · cases h
    cases hscalar : v.convertScalar t with
    | error cause =>
      rw [hscalar] at h
      cases h
    | ok w' =>
      rw [hscalar] at h
      cases h
      cases hpointer : t.isPointer with
      | true =>
        rw [convertScalar_of_isPointer hpointer] at hscalar
        exact tagged_of_toPointer hpointer hscalar
      | false =>
        have hnumber := CType.isNumber_iff.mpr ⟨hpointer, hstruct, hvoid, hauto⟩
        exact tagged_of_convertScalar hnumber hscalar

end Run

/-! ## Arithmetic -/

/-- Whether integers of two types are brought to a type: to its width and its sign. -/
structure CType.Common (s t u : CType) : Prop where
  width : u.width = max (max s.width t.width) MachineInt.plainWidth
  signed : (!u.isUnsigned) =
    ((!s.isUnsigned || s.width < u.width) && (!t.isUnsigned || t.width < u.width))

/-- Whether integers of a type are at least as wide as plain ones. -/
def CType.IsPromoted (t : CType) : Prop :=
  t.isInteger → MachineInt.plainWidth ≤ t.width

/-- Whether a type is what an operator brings integers of two types to. -/
def ArithOp.Settles (op : ArithOp) (s t u : CType) : Prop :=
  s.isInteger → t.isInteger → if op.isShift then MachineInt.plainWidth ≤ s.width else s.Common t u

instance (s t u : CType) : Decidable (s.Common t u) :=
  decidable_of_iff (_ ∧ _) ⟨fun h => ⟨h.1, h.2⟩, fun h => ⟨h.width, h.signed⟩⟩

instance (op : ArithOp) (s t u : CType) : Decidable (op.Settles s t u) :=
  inferInstanceAs (Decidable (s.isInteger → t.isInteger →
    if op.isShift then MachineInt.plainWidth ≤ s.width else s.Common t u))

/-- The width and the sign of what an operator computes from integers. -/
theorem MachineInt.tag_of_arith {op : ArithOp} {a b n : MachineInt} (h : arith op a b = .ok n) :
    if op.isShift then n.width = a.promotedWidth ∧ n.signed = a.signedIn a.promotedWidth
    else n.width = commonWidth a b ∧ n.signed = commonSigned a b := by
  cases op with
  | add | sub | mul | bitAnd | bitXor | bitOr =>
    cases h
    exact ⟨rfl, rfl⟩
  | div | rem =>
    obtain ⟨_, rfl⟩ := eq_of_map_eq_ok h
    exact ⟨rfl, rfl⟩
  | shiftLeft =>
    rw [arith] at h
    split at h
    · cases h
    · cases h
      change _ ∧ _
      unfold MachineInt.shiftLeft
      split <;> exact ⟨rfl, rfl⟩
  | shiftRight =>
    rw [arith] at h
    split at h <;> cases h
    exact ⟨rfl, rfl⟩

/-- An operator that computes an integer from a number computes it from two integers. -/
theorem Operands.exists_ints {op : ArithOp} {l r : Value} {operands : Operands} {n : MachineInt}
    {k : NumberKind} (hl : l.numberKind? = some k) (hselect : select op l r = .ok operands)
    (hv : operands.eval op = .ok (.int n)) :
    ∃ x y, l = .int x ∧ r = .int y ∧ MachineInt.arith op x y = .ok n := by
  have hof := of?_of_select hselect
  cases operands with
  | ints x y =>
    cases l <;> cases r <;> cases hof
    refine ⟨x, y, rfl, rfl, ?_⟩
    cases hn : MachineInt.arith op x y with
    | error cause =>
      rw [eval, hn] at hv
      cases hv
    | ok n' =>
      rw [eval, hn] at hv
      cases hv
      rfl
  | singles x y | doubles x y =>
    obtain ⟨z, hz⟩ := eq_of_map_eq_ok hv
    cases hz
  | pointerInt p i | pointers p q => cases l <;> cases hl <;> cases r <;> cases hof
  | intPointer i p => cases op <;> cases hv

namespace Check

variable {a a' : Analysis} {s t u : CType} {pos : Position}

/-- The type that the analysis finds for a shift is that of what is shifted. -/
theorem eq_of_arithType_shift {op : ArithOp} (hop : op.isShift)
    (h : (arithType op s t pos).exec a = .ok u a') : u = s.writable := by
  have hbitwise : op.isBitwise := by
    cases op <;> first | rfl | cases hop
  unfold arithType at h
  rw [if_pos hbitwise] at h
  split at h
  · cases h
  · cases h
    rfl

/-- The ways to compute with pointers that the analysis knows. -/
theorem cases_of_arithType {op : ArithOp} (hpointer : s.isPointer ∨ t.isPointer)
    (h : (arithType op s t pos).exec a = .ok u a') :
    ((op = .add ∨ op = .sub) ∧ s.isPointer ∧ t.isInteger ∧ u = s.writable) ∨
      (op = .add ∧ s.isInteger ∧ t.isPointer ∧ u = t.writable) ∨
      op = .sub ∧ s.isPointer ∧ t.isPointer ∧ u = .long := by
  have hinteger : ∀ {r : CType}, r.isPointer → r.isInteger = false := by
    rintro ⟨_, _, _ | _⟩ hr
    · cases hr
    · rfl
  unfold arithType at h
  split at h
  · split at h
    · cases h
    · rename_i hboth
      simp only [Bool.or_eq_true, Bool.not_eq_true', not_or, Bool.not_eq_false] at hboth
      rcases hpointer with hs | ht
      · exact absurd hboth.1 (by simp [hinteger hs])
      · exact absurd hboth.2 (by simp [hinteger ht])
  · rw [if_pos (by simpa using hpointer)] at h
    simp only [Bool.and_eq_true, decide_eq_true_eq] at h
    split at h
    · cases h
      rename_i hadd
      exact .inl ⟨.inl hadd.1.1, hadd.1.2, hadd.2, rfl⟩
    · split at h
      · cases h
        rename_i hadd
        exact .inr (.inl ⟨hadd.1.1, hadd.2, hadd.1.2, rfl⟩)
      · split at h
        · cases h
          rename_i hsub
          exact .inl ⟨.inr hsub.1.1, hsub.1.2, hsub.2, rfl⟩
        · split at h
          · cases h
            rename_i hsub
            exact .inr (.inr ⟨hsub.1.1.1, hsub.1.1.2, hsub.1.2, rfl⟩)
          · cases h

end Check

namespace Machine.Tagged

variable {m m' m'' : Machine} {a a' : Analysis} {s t u : CType} {l r v : Value} {pos : Position}

theorem exists_int (h : m.Tagged t v) (ht : t.isInteger) : ∃ n, v = .int n := by
  have hkind := h.numberKind?_eq
  obtain ⟨_, _, _, rfl⟩ := CType.eq_of_isInteger ht
  cases v <;> first | exact ⟨_, rfl⟩ | cases hkind

theorem exists_pointer (h : m.Tagged t v) (ht : t.isPointer) : ∃ p, v = .pointer p := by
  obtain ⟨_, _, _ | ⟨level, levels⟩⟩ := t
  · cases ht
  · cases v <;> first | exact ⟨_, rfl⟩ | cases h.1 | exact h.elim

theorem exists_numberKind (h : m.Tagged t v) (hpointer : ¬t.isPointer) (hstruct : ¬t.isStruct) :
    ∃ k, v.numberKind? = some k := by
  cases v with
  | int n | float x | double x => exact ⟨_, rfl⟩
  | pointer p => exact absurd h.1 hpointer
  | record id => exact absurd h.1 hstruct
  | function name => exact h.elim

/-- What an operator computes with pointers is tagged with the type that the analysis finds. -/
theorem arith_pointer {op : ArithOp} {operands : Operands} (hl : m.Tagged s l)
    (hr : m'.Tagged t r) (hpointer : s.isPointer ∨ t.isPointer)
    (htype : (Check.arithType op s t pos).exec a = .ok u a')
    (hselect : Operands.select op l r = .ok operands) (hv : operands.eval op = .ok v) :
    m''.Tagged u v := by
  have hof := Operands.of?_of_select hselect
  rcases Check.cases_of_arithType hpointer htype with
    ⟨hop, hs, ht, rfl⟩ | ⟨rfl, hs, ht, rfl⟩ | ⟨rfl, hs, ht, rfl⟩
  · obtain ⟨p, rfl⟩ := hl.exists_pointer hs
    obtain ⟨n, rfl⟩ := hr.exists_int ht
    cases hof
    refine writable_iff.mpr ?_
    rcases hop with rfl | rfl <;> (cases hv; exact hl)
  · obtain ⟨n, rfl⟩ := hl.exists_int hs
    obtain ⟨p, rfl⟩ := hr.exists_pointer ht
    cases hof
    cases hv
    exact writable_iff.mpr hr
  · obtain ⟨p, rfl⟩ := hl.exists_pointer hs
    obtain ⟨q, rfl⟩ := hr.exists_pointer ht
    cases hof
    rw [Operands.eval] at hv
    split at hv <;> cases hv
    exact ⟨rfl, rfl, rfl⟩

/-- What an operator computes with integers is tagged with a type that it brings them to. -/
theorem arith_integer {op : ArithOp} {x y n : MachineInt} (hl : m.Tagged s (.int x))
    (hr : m'.Tagged t (.int y)) (hu : u.isInteger)
    (htype : (Check.arithType op s t pos).exec a = .ok u a') (hsettles : op.Settles s t u)
    (hn : MachineInt.arith op x y = .ok n) : m''.Tagged u (.int n) := by
  obtain ⟨hs, hwidth, hsigned⟩ := hl
  obtain ⟨ht, hwidth', hsigned'⟩ := hr
  have htag := MachineInt.tag_of_arith hn
  have hsettles := hsettles hs ht
  by_cases hshift : op.isShift
  · obtain rfl := Check.eq_of_arithType_shift hshift htype
    rw [if_pos hshift] at htag hsettles
    have hpromoted : x.promotedWidth = x.width := by
      rw [MachineInt.promotedWidth, hwidth]
      exact Nat.max_eq_left hsettles
    refine ⟨hu, ?_, ?_⟩
    · rw [htag.1, hpromoted, hwidth, s.width_writable]
    · rw [htag.2, hpromoted, s.isUnsigned_writable, MachineInt.signedIn, hsigned]
      simp
  · rw [if_neg hshift] at htag hsettles
    refine ⟨hu, ?_, ?_⟩
    · rw [htag.1, hsettles.width, MachineInt.commonWidth, hwidth, hwidth']
    · rw [htag.2, hsettles.signed, MachineInt.commonSigned, MachineInt.signedIn,
        MachineInt.signedIn, MachineInt.commonWidth, hsettles.width, hsigned, hsigned', hwidth,
        hwidth']

/-- What an operator computes is tagged with the type that the analysis finds, if that is the one
that the operator brings integers of the types of its operands to. -/
theorem arith {op : ArithOp} {operands : Operands} (hl : m.Tagged s l) (hr : m'.Tagged t r)
    (htype : (Check.operatorType (.arith op) s t pos).exec a = .ok u a')
    (hsettles : op.Settles s t u) (hselect : Operands.select op l r = .ok operands)
    (hv : operands.eval op = .ok v) : m''.Tagged u v := by
  unfold Check.operatorType at htype
  split at htype
  · cases htype
  · rename_i hstruct
    split at htype
    · cases htype
    · by_cases hpointer : s.isPointer ∨ t.isPointer
      · exact arith_pointer hl hr hpointer htype hselect hv
      · rw [not_or] at hpointer
        rw [Bool.or_eq_true, not_or] at hstruct
        obtain ⟨j, hj⟩ := hl.exists_numberKind hpointer.1 hstruct.1
        obtain ⟨k, hk⟩ := hr.exists_numberKind hpointer.2 hstruct.2
        have hu := Check.yields_arithType (D := fun _ => True) (hl.numberKind?_eq.trans hj)
          (hr.numberKind?_eq.trans hk) u a' htype fun _ _ _ _ => trivial
        have hkind := Operands.numberKind?_eval hj hk hselect hv
        refine of_numberKind? hu.1 hkind ?_
        rintro n rfl
        have hinteger : u.isInteger := (CType.isInteger_iff hu.1).mpr (Option.some.inj hkind).symm
        obtain ⟨x, y, rfl, rfl, hn⟩ := Operands.exists_ints hj hselect hv
        have htagged : m''.Tagged u (.int n) := arith_integer hl hr hinteger htype hsettles hn
        exact htagged.2

/-- A sign in front of a number leaves its tag as it is, unless it is a narrow integer. -/
theorem sign {op : ArithOp} (hop : op = .add ∨ op = .sub) {k : NumberKind} {zero : Value}
    {operands : Operands} (ht : m.Tagged t v) (hk : v.numberKind? = some k)
    (hpromoted : t.IsPromoted) (hzero : v.zeroLike = .ok zero)
    (hselect : Operands.select op zero v = .ok operands) (hr : operands.eval op = .ok r) :
    m'.Tagged t r := by
  have hj := Value.numberKind?_zeroLike hk hzero
  have hkind := Operands.numberKind?_eval hj hk hselect hr
  have hbits : op.isBitwise = false := by rcases hop with rfl | rfl <;> rfl
  rw [BinaryOp.numberKind, hbits, NumberKind.join_self] at hkind
  refine of_numberKind? (ht.numberKind?_eq.trans hk) hkind ?_
  rintro n rfl
  obtain ⟨x, y, rfl, rfl, hn⟩ := Operands.exists_ints hj hselect hr
  cases hzero
  obtain ⟨hinteger, hwidth, hsigned⟩ := ht
  have htag := MachineInt.tag_of_arith hn
  rw [if_neg (by rcases hop with rfl | rfl <;> simp [ArithOp.isShift])] at htag
  have hcommon : MachineInt.commonWidth ⟨0, y.width, y.signed⟩ y = y.width := by
    rw [MachineInt.commonWidth, Nat.max_self, hwidth]
    exact Nat.max_eq_left (hpromoted hinteger)
  refine ⟨htag.1.trans (hcommon.trans hwidth), htag.2.trans ?_⟩
  rw [MachineInt.commonSigned, MachineInt.signedIn, MachineInt.signedIn, hcommon]
  simpa using hsigned

/-- An integer whose bits are turned over keeps its tag, unless it is narrow. -/
theorem complement {n : MachineInt} (ht : m.Tagged t (.int n)) (hpromoted : t.IsPromoted) :
    m'.Tagged t (.int n.complement) := by
  obtain ⟨hinteger, hwidth, hsigned⟩ := ht
  have hsame : n.promotedWidth = n.width := by
    rw [MachineInt.promotedWidth, hwidth]
    exact Nat.max_eq_left (hpromoted hinteger)
  refine ⟨hinteger, hsame.trans hwidth, ?_⟩
  change n.signedIn n.promotedWidth = _
  rw [hsame, MachineInt.signedIn]
  simpa using hsigned

end Machine.Tagged

end MiniC
