import MiniC.Proofs.Casts.Nesting
import MiniC.Proofs.Initializers

set_option autoImplicit false

/-! # Casts at run time

A value is of a type if it has the kind, the width and the range that the type says, or is a struct
value of its tag that can be laid open: then its arrays are live, and it has finitely many parts.
Whatever may be cast implicitly can be converted, and the result is of the type that was asked for.
An explicit cast may also lead from a pointer to a number, or from a number to a pointer. The
analysis lets that pass, but a pointer is a place in a buffer and has no number: only zero, as the
null pointer, can be converted. -/

namespace MiniC

/-! ## Values of a type -/

/-- Whether the values of a type are numbers. -/
def CType.isNumber (t : CType) : Bool := t.isInteger || t.isFloating

/-- Whether a value, in a state, is one of a type. -/
inductive Machine.HasType (m : Machine) (t : CType) : Value → Prop
  | int {n : MachineInt} (ht : t.isInteger) (hwidth : n.width = t.width)
    (hsigned : n.signed = !t.isUnsigned) (hrange : n.InRange) : HasType m t (.int n)
  | float {x : Float} (ht : t.isFloating) (hsingle : ¬t.isDouble) : HasType m t (.float x)
  | double {x : Float} (ht : t.isFloating) (hdouble : t.isDouble) : HasType m t (.double x)
  | pointer {p : Pointer} (ht : t.isPointer) : HasType m t (.pointer p)
  | record {id : Nat} {s : Shape} (ht : t.isStruct)
    (htag : t.tag? = some (m.records.get id).tag) (hparts : m.Unfolds 0 (.record id) s) :
    HasType m t (.record id)

/-- Whether a value is no floating number that is infinite or not a number. -/
def Value.IsFinite : Value → Prop
  | .float x | .double x => (Binary64.truncate x).isSome
  | _ => True

instance : DecidablePred Value.IsFinite
  | .float x | .double x => inferInstanceAs (Decidable ((Binary64.truncate x).isSome))
  | .int _ | .pointer _ | .record _ | .function _ => inferInstanceAs (Decidable True)

namespace CType

variable {s t : CType}

theorem isNumber_of_isInteger (h : t.isInteger) : t.isNumber := by
  rw [isNumber, h, Bool.true_or]

theorem isNumber_of_isFloating (h : t.isFloating) : t.isNumber := by
  rw [isNumber, h, Bool.or_true]

/-- A number is none of the other kinds of values. -/
theorem isNumber_iff :
    t.isNumber ↔ t.isPointer = false ∧ t.isStruct = false ∧ t.isVoid = false ∧
      t.isAuto = false := by
  obtain ⟨isConst, base, levels⟩ := t
  cases levels with
  | nil =>
    cases base <;>
      simp [isNumber, isInteger, isFloating, isPointer, isStruct, struct?, isVoid, isAuto]
  | cons level levels => simp [isNumber, isInteger, isFloating, isPointer]

theorem isStruct_iff : t.isStruct ↔ t.isPointer = false ∧ t.tag?.isSome := by
  simp [isStruct, isPointer, tag?]

theorem isStruct_of_isNumber (h : t.isNumber) : t.isStruct = false :=
  (isNumber_iff.mp h).2.1

theorem isInteger_of_isNumber (h : t.isNumber) (hfloating : t.isFloating = false) :
    t.isInteger := by
  rwa [isNumber, hfloating, Bool.or_false] at h

theorem isVoid_of_isPointer (h : t.isPointer) : t.isVoid = false := by
  unfold isPointer at h
  unfold isVoid
  rw [(Bool.not_eq_true' _).mp h]
  rfl

/-- A number may be cast implicitly to a number only, and a floating number to a floating number
only. -/
theorem isNumber_of_castError? (hs : s.isNumber) (h : s.castError? t = none) :
    t.isNumber ∧ (s.isFloating → t.isFloating) ∧ (s.isFloating → s.isDouble → t.isDouble) := by
  obtain ⟨isConst, base, levels⟩ := s
  obtain ⟨isConst', base', levels'⟩ := t
  cases levels with
  | cons level levels => cases hs
  | nil =>
    cases levels' with
    | cons level levels => cases h
    | nil =>
      cases base <;> cases base' <;>
        simp_all [isNumber, isInteger, isFloating, isDouble, castError?, isPointer, isVoid,
          struct?, tag?]
      -- an integer is left to be cast to `auto`, which weighs nothing, and so less
      rename_i kind unsigned
      revert h
      cases kind <;> cases unsigned <;> simp [rank, isUnsigned, baseRank]

end CType

namespace Machine.HasType

variable {m : Machine} {t : CType} {v : Value}

theorem exceedsFloats (h : m.HasType t v) : v.exceedsFloats = false := by
  cases h with
  | int _ hwidth _ hrange =>
    exact MachineInt.Within.exceeds_eq_false ⟨hrange, hwidth ▸ t.width_le⟩
  | _ => rfl

theorem exists_pointer (h : m.HasType t v) (ht : t.isPointer) : ∃ p, v = .pointer p := by
  cases h with
  | pointer _ => exact ⟨_, rfl⟩
  | int hinteger _ _ _ =>
    simp [(CType.isNumber_iff.mp (CType.isNumber_of_isInteger hinteger)).1] at ht
  | float hfloating _ | double hfloating _ =>
    simp [(CType.isNumber_iff.mp (CType.isNumber_of_isFloating hfloating)).1] at ht
  | record hstruct _ _ => simp [(CType.isStruct_iff.mp hstruct).1] at ht

theorem exists_toFloat? (h : m.HasType t v) (ht : t.isNumber) : ∃ x, v.toFloat? = some x := by
  cases h with
  | int _ _ _ _ => exact ⟨_, rfl⟩
  | float _ _ => exact ⟨_, rfl⟩
  | double _ _ => exact ⟨_, rfl⟩
  | pointer hpointer => simp [(CType.isNumber_iff.mp ht).1] at hpointer
  | record hstruct _ _ => simp [CType.isStruct_of_isNumber ht] at hstruct

theorem exists_record (h : m.HasType t v) (ht : t.isStruct) :
    ∃ id s, v = .record id ∧ t.tag? = some (m.records.get id).tag ∧ m.Unfolds 0 (.record id) s := by
  cases h with
  | record _ htag hparts => exact ⟨_, _, rfl, htag, hparts⟩
  | int hinteger _ _ _ =>
    simp [CType.isStruct_of_isNumber (CType.isNumber_of_isInteger hinteger)] at ht
  | float hfloating _ | double hfloating _ =>
    simp [CType.isStruct_of_isNumber (CType.isNumber_of_isFloating hfloating)] at ht
  | pointer hpointer => simp [CType.isStruct_of_isPointer hpointer] at ht

/-- A type with values is one of pointers, of numbers or of structs. -/
theorem kinds (h : m.HasType t v) : t.isPointer ∨ t.isNumber ∨ t.isStruct := by
  cases h with
  | pointer ht => exact .inl ht
  | int ht _ _ _ => exact .inr (.inl (CType.isNumber_of_isInteger ht))
  | float ht _ | double ht _ => exact .inr (.inl (CType.isNumber_of_isFloating ht))
  | record ht _ _ => exact .inr (.inr ht)

end Machine.HasType

namespace Run

variable {m : Machine} {pos : Option Position} {t : CType}

/-! ## Conversions that succeed -/

/-- Whether a value can be converted to a type, with a value of that type as the result; a pointer
then points to what the type says. -/
def Converts (m : Machine) (pos : Option Position) (v : Value) (t : CType) : Prop :=
  ∃ w m', (convert t v pos).exec m = .ok w m' ∧ m'.HasType t w ∧
    ∀ p, w = .pointer p → p.target = t.pointee?

/-- A value of one kind is converted by itself. -/
theorem exec_convert_of_ok (hstruct : t.isStruct = false) {v w : Value}
    (hsmall : v.exceedsFloats = false) (h : v.convertScalar t = .ok w) :
    (convert t v pos).exec m = .ok w m := by
  rw [convert_of_not_struct hstruct, hsmall, Bool.and_false, if_neg Bool.false_ne_true, h]
  rfl

theorem exec_convert_of_error (hstruct : t.isStruct = false) {v : Value} {cause : Fault}
    (hsmall : v.exceedsFloats = false) (h : v.convertScalar t = .error cause) :
    (convert t v pos).exec m = .error (.fault cause pos) m := by
  rw [convert_of_not_struct hstruct, hsmall, Bool.and_false, if_neg Bool.false_ne_true, h]
  rfl

/-- What becomes of a value in a location of a pointer type. -/
theorem convertScalar_of_isPointer (ht : t.isPointer) (v : Value) :
    v.convertScalar t = v.toPointer t := by
  rw [Value.convertScalar, CType.isAuto_of_isPointer ht, CType.isVoid_of_isPointer ht, if_pos ht]
  rfl

/-- What becomes of a value in a location of a number. -/
theorem convertScalar_of_isNumber (ht : t.isNumber) (v : Value) :
    v.convertScalar t = if t.isFloating then v.toFloating t else v.toInteger t := by
  obtain ⟨hpointer, -, hvoid, hauto⟩ := CType.isNumber_iff.mp ht
  rw [Value.convertScalar, hpointer, hvoid, hauto]
  rfl

theorem converts_pointer (ht : t.isPointer) (p : Pointer) : Converts m pos (.pointer p) t := by
  refine ⟨_, m, exec_convert_of_ok (CType.isStruct_of_isPointer ht) rfl
    (convertScalar_of_isPointer ht _), .pointer ht, fun q hq => ?_⟩
  cases hq
  rfl

/-- The integer zero becomes the null pointer. -/
theorem converts_zero (ht : t.isPointer) {n : MachineInt} (hn : n.value = 0) :
    Converts m pos (.int n) t := by
  have hzero : (Value.int n).convertScalar t = .ok (.pointer (.null t.pointee?)) := by
    rw [convertScalar_of_isPointer ht, Value.toPointer, if_pos hn]
  have hsmall : (Value.int n).exceedsFloats = false := by
    rw [Value.exceedsFloats, hn]
    rfl
  refine ⟨_, m, exec_convert_of_ok (CType.isStruct_of_isPointer ht) hsmall hzero, .pointer ht,
    fun q hq => ?_⟩
  cases hq
  rfl

/-- A floating number of the right precision is of its type. -/
theorem hasType_toFloating (ht : t.isFloating) (x : Float) :
    m.HasType t (if t.isDouble then .double x else .float (Binary64.toSingle x)) := by
  split
  · rename_i hdouble
    exact .double ht hdouble
  · rename_i hsingle
    exact .float ht hsingle

/-- An integer that was wrapped is of its type. -/
theorem hasType_ofInt (ht : t.isInteger) (n : Int) :
    m.HasType t (.int (.ofInt t.width (!t.isUnsigned) n)) :=
  .int ht rfl rfl (MachineInt.inRange_ofInt _ _ n)

/-- A number becomes a number of any type, unless it is an integer that is too large for a floating
number, or a floating number that is not finite and an integer is asked for. -/
theorem converts_number (ht : t.isNumber) {v : Value} {x : Float} (hv : v.toFloat? = some x)
    (hsmall : v.exceedsFloats = false) (hfinite : t.isFloating ∨ v.IsFinite) :
    Converts m pos v t := by
  obtain ⟨-, hstruct, -⟩ := CType.isNumber_iff.mp ht
  have hscalar := convertScalar_of_isNumber ht v
  have hresult : ∀ w, v.convertScalar t = .ok w → m.HasType t w → Converts m pos v t := by
    intro w hw hwt
    refine ⟨w, m, exec_convert_of_ok hstruct hsmall hw, hwt, fun p hp => ?_⟩
    subst hp
    cases hwt with
    | pointer hpointer => exact absurd hpointer (by simp [(CType.isNumber_iff.mp ht).1])
  cases hfloating : t.isFloating with
  | true =>
    rw [hfloating, if_pos rfl, Value.toFloating, hv] at hscalar
    exact hresult _ hscalar (hasType_toFloating hfloating x)
  | false =>
    have hinteger := CType.isInteger_of_isNumber ht hfloating
    rw [hfloating, if_neg Bool.false_ne_true] at hscalar
    cases v with
    | int n => exact hresult _ hscalar (hasType_ofInt hinteger n.value)
    | float y | double y =>
      obtain ⟨n, hn⟩ := Option.isSome_iff_exists.mp (hfinite.resolve_left (by simp [hfloating]))
      rw [Value.toInteger] at hscalar
      dsimp only at hscalar
      rw [hn] at hscalar
      exact hresult _ hscalar (hasType_ofInt hinteger n)
    | _ => cases hv

/-- A value with the content of a struct value is a struct value of the same tag. -/
theorem exists_record_of_content {m' : Machine} {id : Nat} {w : Value} {s s' : Shape}
    (h : m.Unfolds 0 (.record id) s) (h' : m'.Unfolds 0 w s') (hcontent : s'.content = s.content) :
    ∃ id', w = .record id' ∧ (m'.records.get id').tag = (m.records.get id).tag := by
  cases h with
  | plain hplain => exact hplain.elim
  | struct hrecord _ =>
    cases h' with
    | plain _ => cases hcontent
    | struct hrecord' _ =>
      rename_i id' _ _ _
      refine ⟨id', rfl, ?_⟩
      rw [Records.get, Records.get, hrecord, hrecord']
      exact (Content.struct.inj hcontent).1

/-- A struct value becomes a struct value of the same tag: a copy of it. -/
theorem converts_record (ht : t.isStruct) {id : Nat} {s : Shape}
    (htag : t.tag? = some (m.records.get id).tag) (hparts : m.Unfolds 0 (.record id) s) :
    Converts m pos (.record id) t := by
  obtain ⟨w, m', hw, -, s₀, s', h₀, h', hcontent, -⟩ := exists_copied_copyWithin hparts
    (hparts.depth_le_records.trans (Nat.mul_le_mul_left _ (Nat.le_succ _))) (.refl m)
  obtain ⟨id', rfl, htag'⟩ := exists_record_of_content h₀ h' hcontent
  refine ⟨_, m', ?_, .record ht (htag' ▸ htag) h', nofun⟩
  rw [convert, if_pos ht, Traced.exec_bind_of_ok _ (Traced.exec_get m), if_pos htag, copy,
    Traced.exec_bind_of_ok _ (Traced.exec_get m)]
  exact hw

/-! ## Implicit casts -/

/-- A value of a type that may be cast implicitly to another can be converted to that type. -/
theorem converts_of_castError? {src dst : CType} {v : Value}
    (hcast : src.castError? dst = none) (hv : m.HasType src v) (pos : Option Position) :
    Converts m pos v dst := by
  obtain ⟨hpointer, hstruct, htag⟩ := CType.alike_of_castError? hcast
  have hsmall := hv.exceedsFloats
  cases hv with
  | pointer ht => exact converts_pointer (hpointer ▸ ht) _
  | record ht htag' hparts => exact converts_record (hstruct ▸ ht) (htag ht ▸ htag') hparts
  | int ht _ _ _ =>
    have hnumber := CType.isNumber_of_castError? (CType.isNumber_of_isInteger ht) hcast
    exact converts_number hnumber.1 rfl hsmall (.inr trivial)
  | float ht _ | double ht _ =>
    have hnumber := CType.isNumber_of_castError? (CType.isNumber_of_isFloating ht) hcast
    exact converts_number hnumber.1 rfl hsmall (.inl (hnumber.2.1 ht))

/-- A state with one struct value, of `struct S {int a[2];}`. -/
def paired : Machine where
  __ := Machine.start
  arena := ⟨#[some #[.int (.plain 1), .int (.plain 2)]]⟩
  records := ⟨#[⟨"S", [("a", .pointer ⟨1, 0, some .int⟩)]⟩]⟩
  structs := ⟨#[⟨"S", [⟨"a", CType.int.pointer, some [2]⟩]⟩]⟩

/-- A read-only struct is converted to one that may be written. -/
theorem converts_of_castError?_paired :
    Converts paired none (.record 0) ⟨false, .struct "S" 0, []⟩ := by
  have harray : paired.Unfolds 1 (.pointer ⟨1, 0, some .int⟩)
      (.array 1 0 (some .int) [.plain (.int (.plain 1)), .plain (.int (.plain 2))]) :=
    .array rfl (.cons (.plain trivial) (.cons (.plain trivial) .nil))
  have hrecord : paired.records.all[0]? = some ⟨"S", [("a", .pointer ⟨1, 0, some .int⟩)]⟩ := rfl
  have hparts : paired.Unfolds 0 (.record 0) (.struct 0 "S" ["a"] [_]) :=
    .struct hrecord (.cons harray .nil)
  have hv : paired.HasType ⟨true, .struct "S" 0, []⟩ (.record 0) := .record rfl rfl hparts
  exact converts_of_castError? (by decide) hv none

/-! ## Explicit casts -/

/-- What the analysis looks at in a cast: the types may not differ in that one is a struct, and
nothing comes of `void`. -/
theorem types_of_cast {type : TypeName} {e : Expr} {a a' : Analysis} {dst : CType}
    (h : (Check.exprType (.cast type e)).exec a = .ok dst a') :
    ∃ src a₁ a₂, (Check.resolve type).exec a = .ok dst a₁ ∧
      (Check.exprType e).exec a₁ = .ok src a₂ ∧ dst.isAuto = false ∧
      (src.isStruct ∨ dst.isStruct → src.tag? = dst.tag?) ∧ (src.isVoid → dst.isVoid) := by
  rw [Check.exprType] at h
  obtain ⟨t, a₁, hresolve, h, -⟩ := Traced.exec_bind_eq_ok h
  dsimp only at h
  split at h
  · cases h
  obtain ⟨src, a₂, hsrc, h, -⟩ := Traced.exec_bind_eq_ok h
  split at h
  · cases h
  rename_i hauto
  split at h
  · cases h
  rename_i htag
  split at h
  · cases h
  rename_i hvoid
  cases h
  refine ⟨src, a₁, _, hresolve, hsrc, Bool.eq_false_iff.mpr hauto, fun hstruct => ?_,
    fun hsrc => ?_⟩
  · by_contra hne
    exact htag (by simpa [hne] using hstruct)
  · simpa [hsrc] using hvoid

end Run

namespace Program

/-- An occurrence of the type `char` in the first line of a text. -/
def sampleChar (column slot : Nat) : TypeName :=
  ⟨sampleToken .typeKeyword "char" 3 column, [], slot⟩

/-- An occurrence of the type `int *` in the first line of a text. -/
def samplePointer (column star slot : Nat) : TypeName :=
  ⟨sampleToken .typeKeyword "int" 1 column, [sampleToken .punctuator "*" 6 star], slot⟩

/-- The program `int main(){int *p = (int *) 5; printf(1); return 0;}`. -/
def pointing : Program where
  items := [
    .function (sampleInt 1 0) (sampleName "main" 2 5 1) [] [
      .line [.declare ⟨⟨samplePointer 12 16 2, sampleName "p" 7 17 3, [],
        some (.cast (samplePointer 22 26 4) (sampleNumber "5" 9 29 5))⟩, []⟩],
      .line [.expr (.call (.identifier (sampleName "printf" 11 32 6)) [sampleNumber "1" 12 39 7])],
      .line [.return (some (sampleNumber "0" 14 50 8))]]]

end Program

end MiniC
