import MiniC.Memory.Arena
import MiniC.Run.Basic
import MiniC.Value.Arith
import MiniC.Value.Compare
import MiniC.Value.Convert

set_option autoImplicit false

/-! # Kinds of faults

Some faults are about the way a program is put together: names, calls and jumps, and labels that
jumps do not find. No computation on values, and no access to a buffer, ends with one of these. -/

namespace MiniC

/-- Whether a fault is about names, calls or jumps. -/
def Fault.isLinkage : Fault → Bool
  | .undefinedName _ | .undefinedFunction _ | .wrongArgumentCount _ | .invalidCall => true
  | .strayBreak | .strayContinue => true
  | .notAssignable => true
  | _ => false

/-- Whether a run stops because of a fault about names, calls or jumps. -/
def Stop.isLinkage : Stop → Bool
  | .fault cause _ => cause.isLinkage
  | _ => false

@[simp]
theorem Stop.isLinkage_locate (pos : Option Position) (stop : Stop) :
    (stop.locate pos).isLinkage = stop.isLinkage := by
  rcases stop with ⟨cause, _ | _⟩ | _ | _ <;> rfl

/-- Whether a fault is about a label that a jump does not find. -/
def Fault.isMissingLabel : Fault → Bool
  | .missingLabel _ => true
  | _ => false

/-- Whether a run stops because of a jump that does not find its label. -/
def Stop.isMissingLabel : Stop → Bool
  | .fault cause _ => cause.isMissingLabel
  | _ => false

/-- Whether a fault is about the way a program is put together. -/
def Fault.isStructural (cause : Fault) : Bool :=
  cause.isLinkage || cause.isMissingLabel

/-- Whether a run stops because of the way the program is put together. -/
def Stop.isStructural (stop : Stop) : Bool :=
  stop.isLinkage || stop.isMissingLabel

/-- A computation that does not end with a fault about the way a program is put together. -/
def LinkageFree {α : Type} (x : Except Fault α) : Prop :=
  ∀ cause, x = .error cause → cause.isStructural = false

namespace LinkageFree

variable {α β : Type}

theorem ok (a : α) : LinkageFree (.ok a) := by
  intro cause h
  cases h

theorem error {cause : Fault} (h : cause.isStructural = false) :
    LinkageFree (.error cause : Except Fault α) := by
  intro cause' h'
  cases h'
  exact h

theorem bind {x : Except Fault α} {f : α → Except Fault β} (hx : LinkageFree x)
    (hf : ∀ a, LinkageFree (f a)) : LinkageFree (x >>= f) := by
  cases x with
  | ok a => exact hf a
  | error cause => exact error (hx cause rfl)

theorem map {x : Except Fault α} {f : α → β} (hx : LinkageFree x) : LinkageFree (x.map f) := by
  cases x with
  | ok a => exact ok (f a)
  | error cause => exact error (hx cause rfl)

end LinkageFree

/-! ## Buffers -/

namespace Arena

theorem linkageFree_contents (a : Arena) (handle : Nat) : LinkageFree (a.contents handle) := by
  unfold contents
  split
  · exact .error rfl
  · exact .ok _

theorem linkageFree_locate (a : Arena) (p : Pointer) : LinkageFree (a.locate p) := by
  unfold locate
  split
  · exact .error rfl
  · split
    · exact .error rfl
    · split
      · exact .ok _
      · exact .error rfl

theorem linkageFree_load (a : Arena) (p : Pointer) : LinkageFree (a.load p) := by
  refine .bind (a.linkageFree_locate p) fun (values, i) => ?_
  dsimp only
  split
  · exact .error rfl
  · exact .ok _

theorem linkageFree_codesToZero (values : List Value) : LinkageFree (codesToZero values) := by
  induction values with
  | nil => exact .error rfl
  | cons v rest ih =>
    cases v with
    | int n =>
      rw [codesToZero]
      split
      · exact .ok _
      · exact .map ih
    | _ => exact .error rfl

theorem linkageFree_readString (a : Arena) (p : Pointer) : LinkageFree (a.readString p) :=
  .bind (a.linkageFree_locate p) fun (values, i) => linkageFree_codesToZero (values.toList.drop i)

end Arena

/-! ## Arithmetic -/

theorem MachineInt.linkageFree_divide (a b : Int) : LinkageFree (divide a b) := by
  unfold divide
  split
  · exact .error rfl
  · exact .ok _

theorem MachineInt.linkageFree_arith (op : ArithOp) (a b : MachineInt) :
    LinkageFree (arith op a b) := by
  cases op with
  | div | rem => exact .map (linkageFree_divide _ _)
  | shiftLeft | shiftRight =>
    rw [arith]
    split
    · exact .error rfl
    · exact .ok _
  | _ => exact .ok _

theorem linkageFree_floatArith (op : ArithOp) (x y : Float) : LinkageFree (floatArith op x y) := by
  cases op with
  | add | sub | mul => exact .ok _
  | div =>
    rw [floatArith]
    split
    · exact .error rfl
    · exact .ok _
  | _ => exact .error rfl

namespace Operands

theorem linkageFree_select (op : ArithOp) (left right : Value) :
    LinkageFree (select op left right) := by
  unfold select
  split
  · exact .error rfl
  · split
    · exact .error rfl
    · split
      · exact .error rfl
      · exact .ok _

theorem linkageFree_eval (op : ArithOp) (operands : Operands) :
    LinkageFree (operands.eval op) := by
  cases operands with
  | ints a b => exact .map (MachineInt.linkageFree_arith op a b)
  | singles x y | doubles x y => exact .map (linkageFree_floatArith op x y)
  | pointerInt p n | intPointer n p =>
    cases op with
    | add => exact .ok _
    | sub => first | exact .ok _ | exact .error rfl
    | _ => exact .error rfl
  | pointers p q =>
    cases op with
    | sub =>
      rw [eval]
      split
      · exact .ok _
      · exact .error rfl
    | _ => exact .error rfl

end Operands

/-! ## Values -/

namespace Value

theorem linkageFree_zeroLike (v : Value) : LinkageFree v.zeroLike := by
  cases v with
  | int | float | double => exact .ok _
  | _ => exact .error rfl

theorem linkageFree_numeral (v : Value) : LinkageFree v.numeral := by
  cases v with
  | int | float | double => exact .ok _
  | _ => exact .error rfl

theorem linkageFree_place (v : Value) : LinkageFree v.place := by
  cases v with
  | pointer => exact .ok _
  | int n =>
    rw [place]
    split
    · exact .ok _
    · exact .error rfl
  | _ => exact .error rfl

theorem linkageFree_comparePlaces (op : RelOp) (p q : Nat × Int) :
    LinkageFree (comparePlaces op p q) := by
  unfold comparePlaces
  split
  · exact .ok _
  · exact .ok _
  · split
    · exact .error rfl
    · exact .ok _

theorem linkageFree_compare (op : RelOp) (left right : Value) :
    LinkageFree (compare op left right) := by
  unfold compare
  split
  · refine .bind left.linkageFree_place fun p => ?_
    exact .bind right.linkageFree_place fun q => linkageFree_comparePlaces op p q
  · refine .bind left.linkageFree_numeral fun x => ?_
    exact .bind right.linkageFree_numeral fun y => .ok _

theorem linkageFree_truth (v : Value) : LinkageFree v.truth := by
  cases v with
  | int | float | double | pointer => exact .ok _
  | _ => exact .error rfl

theorem linkageFree_toPointer (t : CType) (v : Value) : LinkageFree (v.toPointer t) := by
  cases v with
  | pointer => exact .ok _
  | int n =>
    rw [toPointer]
    split
    · exact .ok _
    · exact .error rfl
  | _ => exact .error rfl

theorem linkageFree_toFloating (t : CType) (v : Value) : LinkageFree (v.toFloating t) := by
  unfold toFloating
  split
  · exact .error rfl
  · exact .ok _

theorem linkageFree_toInteger (t : CType) (v : Value) : LinkageFree (v.toInteger t) := by
  cases v with
  | int => exact .ok _
  | float x | double x =>
    simp only [toInteger]
    split
    · exact .error rfl
    · exact .ok _
  | _ => exact .error rfl

theorem linkageFree_convertScalar (t : CType) (v : Value) :
    LinkageFree (v.convertScalar t) := by
  unfold convertScalar
  split
  · exact .ok _
  · split
    · exact linkageFree_toPointer t v
    · split
      · exact linkageFree_toFloating t v
      · exact linkageFree_toInteger t v

theorem linkageFree_zeroScalar (t : CType) : LinkageFree (zeroScalar t) := by
  unfold zeroScalar
  split
  · exact .ok _
  · split
    · exact .ok _
    · split
      · exact .ok _
      · exact .error rfl

end Value

end MiniC
