import MiniC.Ast.Basic
import MiniC.Check.Expr
import MiniC.Proofs.Occurrences
import MiniC.Value.Arith
import MiniC.Value.Convert

set_option autoImplicit false

/-! # The usual arithmetic conversions

The kind of numbers that an arithmetic expression computes, found from the kinds of its names, its
literals and the types of its casts: an operator brings both of its operands to the more precise
kind. With this go the kinds of numbers that types and values have. -/

namespace MiniC

/-! ## Kinds of numbers -/

/-- A kind of numbers: integers, or floating numbers of single or double precision. -/
inductive NumberKind
  | integer
  | single
  | double
deriving DecidableEq, Repr

/-- The kind that two numbers are brought to. -/
def NumberKind.join : NumberKind → NumberKind → NumberKind
  | .double, _ => .double
  | _, .double => .double
  | .single, _ => .single
  | _, .single => .single
  | .integer, .integer => .integer

theorem NumberKind.join_self (k : NumberKind) : k.join k = k := by
  cases k <;> rfl

theorem NumberKind.join_comm (j k : NumberKind) : j.join k = k.join j := by
  cases j <;> cases k <;> rfl

/-- The kind of the numbers of a base, if these are numbers. -/
def Base.numberKind? : Base → Option NumberKind
  | .integer _ _ => some .integer
  | .float => some .single
  | .double => some .double
  | .longDouble => some .double
  | _ => none

/-- The kind of the numbers of a type, if its values are numbers. -/
def CType.numberKind? (t : CType) : Option NumberKind :=
  match t.levels with
  | [] => t.base.numberKind?
  | _ :: _ => none

/-- The kind of a value, if it is a number. -/
def Value.numberKind? : Value → Option NumberKind
  | .int _ => some .integer
  | .float _ => some .single
  | .double _ => some .double
  | _ => none

/-- The kind that an operator computes from an operand of a kind, if it is one of arithmetic. -/
def UnaryOp.numberKind? (op : UnaryOp) (k : NumberKind) : Option NumberKind :=
  match op with
  | .negate | .plus => some k
  | .not | .complement => some .integer
  | .deref | .address => none

/-- The kind that an operator computes from operands of two kinds. -/
def BinaryOp.numberKind (op : BinaryOp) (left right : NumberKind) : NumberKind :=
  match op with
  | .arith op => if op.isBitwise then .integer else left.join right
  | .relation _ => .integer
  | .logic _ => .integer

/-- The kind of an arithmetic expression, where the kinds of its names are given; nothing if some
part of it is no arithmetic expression. -/
def Expr.numberKind? (names : Leaf → Option NumberKind) : Expr → Option NumberKind
  | .identifier leaf => names leaf
  | .literal _ kind => kind.ctype.numberKind?
  | .parens e => e.numberKind? names
  | .unary op e => do op.numberKind? (← e.numberKind? names)
  | .binary op left right => do
    return op.numberKind (← left.numberKind? names) (← right.numberKind? names)
  | .conditional cond first second => do
    let _ ← cond.numberKind? names
    return (← first.numberKind? names).join (← second.numberKind? names)
  | .cast type e => do
    let _ ← e.numberKind? names
    let target ← (CType.ofWords (fun _ => none) type.words).toOption
    target.numberKind?
  | _ => none

/-- Whether both branches of every conditional expression in an expression have the same kind. -/
def Expr.BranchesAgree (names : Leaf → Option NumberKind) (e : Expr) : Prop :=
  ∀ cond first second, .expr (.conditional cond first second) ∈ e.occurrences →
    first.numberKind? names = second.numberKind? names

/-! ## Types of numbers -/

namespace CType

variable {s t : CType} {j k : NumberKind}

theorem numberKind?_writable (t : CType) : t.writable.numberKind? = t.numberKind? := by
  obtain ⟨isConst, base, levels⟩ := t
  cases levels with
  | nil => rfl
  | cons level levels => rfl

/-- A type of numbers has no pointer levels. -/
theorem eq_of_numberKind? (ht : t.numberKind? = some k) :
    ∃ isConst base, t = ⟨isConst, base, []⟩ ∧ base.numberKind? = some k := by
  obtain ⟨isConst, base, levels⟩ := t
  cases levels with
  | nil => exact ⟨isConst, base, rfl, ht⟩
  | cons level levels => cases ht

/-- A type of numbers is no pointer, no struct, not void and not left open. -/
theorem plain_of_numberKind? (ht : t.numberKind? = some k) :
    t.isPointer = false ∧ t.struct? = none ∧ t.isStruct = false ∧ t.isVoid = false ∧
      t.isAuto = false := by
  obtain ⟨isConst, base, rfl, hbase⟩ := eq_of_numberKind? ht
  cases base <;> cases hbase <;> exact ⟨rfl, rfl, rfl, rfl, rfl⟩

theorem isInteger_iff (ht : t.numberKind? = some k) : t.isInteger ↔ k = .integer := by
  obtain ⟨isConst, base, rfl, hbase⟩ := eq_of_numberKind? ht
  cases base <;> cases hbase <;> simp [isInteger]

theorem isFloating_iff (ht : t.numberKind? = some k) : t.isFloating ↔ k ≠ .integer := by
  obtain ⟨isConst, base, rfl, hbase⟩ := eq_of_numberKind? ht
  cases base <;> cases hbase <;> simp [isFloating]

theorem isDouble_iff (ht : t.numberKind? = some k) : t.isDouble ↔ k = .double := by
  obtain ⟨isConst, base, rfl, hbase⟩ := eq_of_numberKind? ht
  cases base <;> cases hbase <;> simp [isDouble]

/-- A number is cast implicitly only to a type of the kind that both are brought to. -/
theorem join_eq_of_canCast (hs : s.numberKind? = some j) (ht : t.numberKind? = some k)
    (hcast : s.canCast t) : j.join k = k := by
  obtain ⟨_, source, rfl, hsource⟩ := eq_of_numberKind? hs
  obtain ⟨_, target, rfl, htarget⟩ := eq_of_numberKind? ht
  cases source <;> cases hsource <;> cases target <;> cases htarget <;>
    first
    | rfl
    | simp [canCast, castError?, isPointer, isVoid, struct?, isFloating, isDouble] at hcast

end CType

/-! ## Values of operators -/

/-- The result of a computation to which a function was applied. -/
theorem eq_of_map_eq_ok {α β : Type} {x : Except Fault α} {f : α → β} {b : β}
    (h : x.map f = .ok b) : ∃ a, b = f a := by
  cases x with
  | ok a =>
    cases h
    exact ⟨a, rfl⟩
  | error cause => cases h

/-- The zero that a sign is applied to is of the kind of its operand. -/
theorem Value.numberKind?_zeroLike {v zero : Value} {k : NumberKind} (hv : v.numberKind? = some k)
    (hzero : v.zeroLike = .ok zero) : zero.numberKind? = some k := by
  cases v <;> cases hzero <;> exact hv

namespace Operands

variable {l r : Value} {j k : NumberKind}

/-- Operands that are numbers are computed with in the kind that both are brought to. -/
theorem of?_of_numberKind? (hl : l.numberKind? = some j) (hr : r.numberKind? = some k) :
    ∃ operands, of? l r = some operands ∧
      ((∃ a b, operands = .ints a b ∧ j.join k = .integer) ∨
        (∃ x y, operands = .singles x y ∧ j.join k = .single) ∨
          ∃ x y, operands = .doubles x y ∧ j.join k = .double) := by
  cases l <;> cases hl <;> cases r <;> cases hr <;> simp [of?, NumberKind.join]

/-- What an operator computes from numbers has the kind that the operator computes. -/
theorem numberKind?_eval {op : ArithOp} {operands : Operands} {v : Value}
    (hl : l.numberKind? = some j) (hr : r.numberKind? = some k)
    (hselect : select op l r = .ok operands) (hv : operands.eval op = .ok v) :
    v.numberKind? = some ((BinaryOp.arith op).numberKind j k) := by
  obtain ⟨operands', hof, hkinds⟩ := of?_of_numberKind? hl hr
  rw [select, hof] at hselect
  dsimp only at hselect
  split at hselect
  · cases hselect
  · split at hselect
    · cases hselect
    · rename_i hbits
      cases hselect
      rw [BinaryOp.numberKind]
      rcases hkinds with ⟨a, b, rfl, hjoin⟩ | ⟨x, y, rfl, hjoin⟩ | ⟨x, y, rfl, hjoin⟩
      · rw [hjoin, ite_self]
        obtain ⟨n, rfl⟩ := eq_of_map_eq_ok hv
        rfl
      · -- floating numbers are refused by the operators on bits
        rw [if_neg (by simpa [areInts] using hbits), hjoin]
        obtain ⟨z, rfl⟩ := eq_of_map_eq_ok hv
        rfl
      · rw [if_neg (by simpa [areInts] using hbits), hjoin]
        obtain ⟨z, rfl⟩ := eq_of_map_eq_ok hv
        rfl

end Operands

namespace Value

variable {t : CType} {v w : Value} {k : NumberKind}

theorem numberKind?_toFloating (ht : t.numberKind? = some k) (hk : k ≠ .integer)
    (hw : v.toFloating t = .ok w) : w.numberKind? = some k := by
  unfold toFloating at hw
  split at hw
  · cases hw
  · cases hw
    by_cases hdouble : k = .double
    · rw [if_pos ((CType.isDouble_iff ht).mpr hdouble), hdouble]
      rfl
    · rw [if_neg (fun h => hdouble ((CType.isDouble_iff ht).mp h))]
      cases k <;> first | rfl | exact absurd rfl hk | exact absurd rfl hdouble

theorem numberKind?_toInteger (hw : v.toInteger t = .ok w) : w.numberKind? = some .integer := by
  cases v with
  | int n =>
    cases hw
    rfl
  | float x | double x =>
    simp only [toInteger] at hw
    split at hw
    · cases hw
    · cases hw
      rfl
  | _ => cases hw

/-- A value that is converted to a type of numbers is of the kind of the type. -/
theorem numberKind?_convertScalar (ht : t.numberKind? = some k)
    (hw : v.convertScalar t = .ok w) : w.numberKind? = some k := by
  obtain ⟨hpointer, -, -, hvoid, hauto⟩ := CType.plain_of_numberKind? ht
  rw [convertScalar, hvoid, hauto, hpointer] at hw
  by_cases hk : k = .integer
  · have hfloating : t.isFloating = false := by
      simpa [hk] using CType.isFloating_iff ht
    rw [hfloating] at hw
    rw [hk]
    exact numberKind?_toInteger hw
  · rw [(CType.isFloating_iff ht).mpr hk] at hw
    exact numberKind?_toFloating ht hk hw

end Value

end MiniC
