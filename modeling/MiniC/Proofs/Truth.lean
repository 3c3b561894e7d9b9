import Mathlib.Algebra.GroupWithZero.Basic
import Mathlib.Logic.Relation
import Mathlib.Order.Compare
import MiniC.Proofs.Linkage

set_option autoImplicit false

/-! # Truth and comparison with zero

A number counts as true if it is unequal to zero, and a pointer if it points to a buffer. For a
comparison with zero the index of a pointer matters as well: zero stands for the start of no buffer.
So a pointer to no buffer that was moved is false as a condition and unequal to zero. It is the only
scalar value for which truth and comparison with zero disagree, and no pointer to a buffer can be
moved to become one. -/

namespace MiniC

/-! ## Floating numbers that are zero -/

namespace Binary64

theorem zero_eq : zero false = 0 := by decide

/-- Two floating numbers are equal to zero: the zeros of both signs. -/
theorem beq_zero_iff {x : Float} : (x == zero false) = true ↔ x = 0 ∨ x = -0 := by
  have hpos : (0 : Float) ≠ Float.nan := by decide
  have hneg : (-0 : Float) ≠ Float.nan := by decide
  have hne : (0 : Float) ≠ -0 := by decide
  rw [zero_eq, Float.beq_iff_ne_nan_and_eq]
  constructor
  · rintro ⟨-, -, rfl | ⟨-, h⟩ | ⟨rfl, -⟩⟩
    · exact .inl rfl
    · exact absurd h hne
    · exact .inr rfl
  · rintro (rfl | rfl)
    · exact ⟨hpos, hpos, .inl rfl⟩
    · exact ⟨hneg, hpos, .inr (.inr ⟨rfl, rfl⟩)⟩

/-- All bits of a zero except for its sign are zero. -/
theorem toNat_toBits_mod_eq_zero_iff {x : Float} :
    x.toBits.toNat % 2 ^ 63 = 0 ↔ x = 0 ∨ x = -0 := by
  have hpos : (0 : Float).toBits.toNat = 0 := by decide
  have hneg : (-0 : Float).toBits.toNat = 2 ^ 63 := by decide
  have hlt := x.toBits.toNat_lt
  constructor
  · intro h
    have hcases : x.toBits.toNat = 0 ∨ x.toBits.toNat = 2 ^ 63 := by omega
    rcases hcases with h | h
    · exact .inl (Float.toBits_inj.mp (UInt64.toNat_inj.mp (h.trans hpos.symm)))
    · exact .inr (Float.toBits_inj.mp (UInt64.toNat_inj.mp (h.trans hneg.symm)))
  · rintro (rfl | rfl)
    · rw [hpos, Nat.zero_mod]
    · rw [hneg, Nat.mod_self]

/-- The exponent and the fraction of a number are its bits except for the sign. -/
theorem exists_exact_eq_finite_zero_iff {x : Float} :
    (∃ negative e, exact x = .finite negative 0 e) ↔ x.toBits.toNat % 2 ^ 63 = 0 := by
  have hsplit : x.toBits.toNat % 2 ^ 63 =
      x.toBits.toNat / 2 ^ 52 % 2 ^ 11 * 2 ^ 52 + x.toBits.toNat % 2 ^ 52 := by omega
  rw [hsplit]
  unfold exact
  dsimp only [Nat.pow_eq]
  split
  · rename_i hbiased
    rw [hbiased]
    split <;> simp
  · split
    · rename_i hbiased
      rw [hbiased]
      simp
    · simp only [Exact.finite.injEq]
      omega

/-- Zero is `n * 2 ^ e` only if `n` is zero. -/
theorem compare_zero_scaled_eq_iff (n e : Int) :
    (if e < 0 then compare (0 * Int.pow 2 (-e).toNat) n else compare 0 (n * Int.pow 2 e.toNat)) =
      .eq ↔ n = 0 := by
  have hpow : (2 : Int) ^ e.toNat ≠ 0 := pow_ne_zero e.toNat two_ne_zero
  split
  · rw [compare_eq_iff_eq, Int.zero_mul, eq_comm]
  · rw [compare_eq_iff_eq, Int.pow_eq, eq_comm, mul_eq_zero_iff_right hpow]

/-- The integer zero compares as equal with the numbers that are equal to the floating zero. -/
theorem compareInt_zero_eq_iff {x : Float} :
    compareInt 0 x = some .eq ↔ (x == zero false) = true := by
  rw [beq_zero_iff, ← toNat_toBits_mod_eq_zero_iff, ← exists_exact_eq_finite_zero_iff]
  unfold compareInt
  cases exact x with
  | nan => simp
  | infinite negative => cases negative <;> simp
  | finite negative m e =>
    dsimp only
    rw [Option.some_inj, compare_zero_scaled_eq_iff]
    cases negative <;> simp

end Binary64

/-! ## Numbers -/

namespace Numeral

/-- Whether a number is zero. -/
def isZero : Numeral → Bool
  | .int n => n = 0
  | .float x => x == Binary64.zero false

theorem compare_zero_eq_iff {n : Numeral} : n.compare (.int 0) = some .eq ↔ n.isZero := by
  cases n with
  | int n =>
    rw [compare, Option.some_inj, isZero, decide_eq_true_iff]
    exact compare_eq_iff_eq
  | float x =>
    have hswap : (Binary64.compareInt 0 x).map Ordering.swap = some .eq ↔
        Binary64.compareInt 0 x = some .eq := by
      rw [Option.map_eq_some_iff]
      simp
    rw [compare, hswap, isZero]
    exact Binary64.compareInt_zero_eq_iff

end Numeral

theorem RelOp.holds_eq (order : Option Ordering) :
    RelOp.eq.holds order = decide (order = some .eq) := by
  rcases order with _ | _ | _ | _ <;> rfl

theorem RelOp.holds_ne (order : Option Ordering) :
    RelOp.ne.holds order = !RelOp.eq.holds order := by
  rcases order with _ | _ | _ | _ <;> rfl

namespace Value

/-! ## Scalar values -/

/-- Whether a value is a number or a pointer. -/
def IsScalar : Value → Prop
  | .record _ | .function _ => False
  | _ => True

/-- Whether a value is a pointer to no buffer that was moved away from the start of it. -/
def IsStrayNull : Value → Prop
  | .pointer p => p.isNull ∧ p.index ≠ 0
  | _ => False

/-- The zero that a program writes. -/
def zeroLiteral : Value := .int (.plain 0)

/-- Whether a value as a condition is true exactly if it is unequal to zero, and if it is not equal
to zero, and if its negation is false. None of these stops. -/
def AgreesWithZero (v : Value) : Prop :=
  ∃ b, compare .ne v zeroLiteral = .ok b ∧ compare .eq v zeroLiteral = .ok (!b) ∧
    ∀ m pos, (Run.truth v).exec m = .ok b m ∧ (Run.unary .not v pos).exec m = .ok (.ofBool (!b)) m

theorem exec_truth {v : Value} {b : Bool} (h : v.truth = .ok b) (m : Machine) :
    (Run.truth v).exec m = .ok b m := by
  rw [Run.truth, h]
  rfl

/-- The negation of a value is true exactly if the value is false as a condition. -/
theorem exec_not {v : Value} {b : Bool} (h : v.truth = .ok b) (m : Machine) (pos : Position) :
    (Run.unary .not v pos).exec m = .ok (.ofBool (!b)) m := by
  rw [Run.unary, Traced.exec_bind_of_ok _ (exec_truth h m)]
  rfl

/-- A number is compared with zero as a number. -/
theorem compare_zeroLiteral {v : Value} {n : Numeral} (hnumber : v.numeral = .ok n) (op : RelOp) :
    compare op v zeroLiteral = .ok (op.holds (n.compare (.int 0))) := by
  unfold compare
  cases v with
  | int a | float x | double x => cases hnumber; rfl
  | pointer p | record id | function name => cases hnumber

theorem agreesWithZero_of_numeral {v : Value} {n : Numeral} (hnumber : v.numeral = .ok n) :
    v.AgreesWithZero := by
  have htruth : v.truth = .ok !n.isZero := by
    cases v with
    | int a =>
      cases hnumber
      rw [truth, Numeral.isZero, decide_not]
    | float x | double x => cases hnumber; rfl
    | pointer p | record id | function name => cases hnumber
  have heq : RelOp.eq.holds (n.compare (.int 0)) = n.isZero := by
    rw [RelOp.holds_eq, Bool.decide_congr Numeral.compare_zero_eq_iff, Bool.decide_coe]
  refine ⟨!n.isZero, ?_, ?_, fun m pos => ⟨exec_truth htruth m, exec_not htruth m pos⟩⟩
  · rw [compare_zeroLiteral hnumber, RelOp.holds_ne, heq]
  · rw [compare_zeroLiteral hnumber, heq, Bool.not_not]

/-- A pointer agrees with zero unless it points to no buffer and was moved: as a condition it is
false for its buffer, and unequal to zero for its index. -/
theorem agreesWithZero_pointer_iff (p : Pointer) :
    (Value.pointer p).AgreesWithZero ↔ ¬(Value.pointer p).IsStrayNull := by
  have hne : compare .ne (.pointer p) zeroLiteral = .ok (decide ((p.buffer, p.index) ≠ (0, 0))) :=
    rfl
  have heq : compare .eq (.pointer p) zeroLiteral = .ok (decide ((p.buffer, p.index) = (0, 0))) :=
    rfl
  have htruth : (Value.pointer p).truth = .ok !p.isNull := rfl
  -- A condition looks at the buffer only, a comparison with zero at the index too.
  have hplace : (p.buffer, p.index) = (0, 0) ↔ p.isNull = true ∧ p.index = 0 := by
    rw [Prod.mk.injEq, Pointer.isNull, decide_eq_true_iff]
  constructor
  · rintro ⟨b, hb, -, hcondition⟩ ⟨hnull, hindex⟩
    cases hne.symm.trans hb
    have hfalse := (hcondition .start ⟨1, 1⟩).1.symm.trans (exec_truth htruth .start)
    rw [hnull] at hfalse
    injection hfalse with hfalse
    exact of_decide_eq_false hfalse fun h => hindex (hplace.mp h).2
  · intro hstray
    have hb : (!p.isNull) = decide ((p.buffer, p.index) ≠ (0, 0)) := by
      rw [Bool.eq_iff_iff, decide_eq_true_iff, Ne, hplace, Bool.not_eq_true']
      constructor
      · intro hnull h
        rw [hnull] at h
        cases h.1
      · intro h
        by_contra hnull
        rw [Bool.not_eq_false] at hnull
        exact h ⟨hnull, by_contra fun hindex => hstray ⟨hnull, hindex⟩⟩
    refine ⟨!p.isNull, hb ▸ hne, ?_, fun m pos => ⟨exec_truth htruth m, exec_not htruth m pos⟩⟩
    rw [hb, heq, decide_not, Bool.not_not]

/-- Of all scalar values, only the stray null pointers do not agree with zero. -/
theorem agreesWithZero_iff {v : Value} (hscalar : v.IsScalar) :
    v.AgreesWithZero ↔ ¬v.IsStrayNull := by
  cases v with
  | pointer p => exact agreesWithZero_pointer_iff p
  | int a => exact iff_of_true (agreesWithZero_of_numeral rfl) id
  | float x => exact iff_of_true (agreesWithZero_of_numeral rfl) id
  | double x => exact iff_of_true (agreesWithZero_of_numeral rfl) id
  | record id => exact hscalar.elim
  | function name => exact hscalar.elim

end Value

/-! ## Pointer arithmetic -/

namespace Pointer

/-- Whether an integer added to a pointer, or subtracted from it, gives another pointer. -/
def Moves (p q : Pointer) : Prop :=
  ∃ op n, Value.arith op (.pointer p) (.int n) = .ok (.pointer q) ∨
    Value.arith op (.int n) (.pointer p) = .ok (.pointer q)

/-- An operator on a pointer and an integer moves the pointer, if it has a result. -/
theorem exists_moved_of_arith {p q : Pointer} {op : ArithOp} {n : MachineInt}
    (h : Value.arith op (.pointer p) (.int n) = .ok (.pointer q)) : ∃ k, q = p.moved k := by
  cases op with
  | add => cases h; exact ⟨_, rfl⟩
  | sub => cases h; exact ⟨_, rfl⟩
  | mul | div | rem | bitAnd | bitXor | bitOr | shiftLeft | shiftRight => cases h

theorem exists_moved_of_arith_int {p q : Pointer} {op : ArithOp} {n : MachineInt}
    (h : Value.arith op (.int n) (.pointer p) = .ok (.pointer q)) : ∃ k, q = p.moved k := by
  cases op with
  | add => cases h; exact ⟨_, rfl⟩
  | sub | mul | div | rem | bitAnd | bitXor | bitOr | shiftLeft | shiftRight => cases h

theorem Moves.buffer_eq {p q : Pointer} (h : p.Moves q) : q.buffer = p.buffer := by
  obtain ⟨op, n, h | h⟩ := h
  · obtain ⟨k, rfl⟩ := exists_moved_of_arith h
    rfl
  · obtain ⟨k, rfl⟩ := exists_moved_of_arith_int h
    rfl

/-- However often a pointer is moved, it points to the same buffer, or to none. -/
theorem isNull_of_moves {p q : Pointer} (h : Relation.ReflTransGen Moves p q) :
    q.isNull = p.isNull := by
  induction h with
  | refl => rfl
  | tail _ hstep ih => rw [← ih, isNull, isNull, hstep.buffer_eq]

end Pointer

/-! ## Agreement -/

namespace Value

/-- A scalar value as a condition is true exactly if it is unequal to zero, and then it is not equal
to zero and its negation is false, unless it is a pointer to no buffer that was moved. So whatever a
pointer to a buffer is moved to agrees with zero, and what a null pointer is moved to does if it is
back at the start. -/
theorem truth_agrees_with_zero (v : Value) (p q : Pointer) :
    (v.IsScalar → (v.AgreesWithZero ↔ ¬v.IsStrayNull)) ∧
    (Relation.ReflTransGen Pointer.Moves p q →
      ((Value.pointer q).AgreesWithZero ↔ p.isNull = false ∨ q.index = 0)) := by
  refine ⟨agreesWithZero_iff, fun h => ?_⟩
  rw [agreesWithZero_pointer_iff, IsStrayNull, Pointer.isNull_of_moves h]
  cases p.isNull <;> simp

/-- The negative zero is a number that agrees with zero, and so does the null pointer after it was
moved there and back. -/
theorem truth_agrees_with_zero_back :
    (Value.double (-0)).AgreesWithZero ∧ (Value.pointer (.null none)).AgreesWithZero := by
  obtain ⟨hscalar, hpointer⟩ := truth_agrees_with_zero (.double (-0)) (.null none) (.null none)
  have hthere : Pointer.Moves (.null none) ⟨0, 1, none⟩ := ⟨.add, .plain 1, .inl rfl⟩
  have hback : Pointer.Moves ⟨0, 1, none⟩ (.null none) := ⟨.sub, .plain 1, .inl rfl⟩
  refine ⟨(hscalar trivial).mpr id, (hpointer ?_).mpr (.inr rfl)⟩
  exact (Relation.ReflTransGen.single hthere).tail hback

end Value

namespace Program

/-- The type of pointers to `int`, with the star behind the word, in the first line of a text. -/
def sampleIntPointer (column slot : Nat) : TypeName :=
  ⟨sampleToken .typeKeyword "int" 1 column, [sampleToken .punctuator "*" 6 (column + 4)], slot⟩

/-- The program `int main(){int *p = (int *) 0; p = p + 1;
printf((p != (int *) 0) == (p ? 1 : 0)); return 0;}` in one line, where a null pointer is moved. -/
def movedNull : Program where
  items := [
    .function (sampleInt 1 0) (sampleName "main" 2 5 1) [] [
      .line [.declare ⟨⟨sampleIntPointer 12 2, sampleName "p" 7 17 3, [],
        some (.cast (sampleIntPointer 22 4) (sampleNumber "0" 9 29 5))⟩, []⟩],
      .line [.expr (.assign none (.identifier (sampleName "p" 7 32 6))
        (.binary (.arith .add) (.identifier (sampleName "p" 7 36 7)) (sampleNumber "1" 12 40 8)))],
      .line [.expr (.call (.identifier (sampleName "printf" 13 43 9))
        [.binary (.relation .eq)
          (.parens (.binary (.relation .ne) (.identifier (sampleName "p" 7 51 10))
            (.cast (sampleIntPointer 57 11) (sampleNumber "0" 9 64 12))))
          (.parens (.conditional (.identifier (sampleName "p" 7 71 13))
            (sampleNumber "1" 12 75 14) (sampleNumber "0" 9 79 15)))])],
      .line [.return (some (sampleNumber "0" 9 91 16))]]]

/-- Truth and comparison with zero do not agree for every scalar value: a null pointer to which one
was added is unequal to zero and false as a condition, so that the accepted program prints zero. -/
theorem not_truth_agrees_with_zero :
    movedNull.Accepted ∧ (movedNull.run (fun _ => none) 100).2.output = "0\n" ∧
    ¬∀ v : Value, v.IsScalar → v.AgreesWithZero := by
  have haccepted : movedNull.Accepted := by
    unfold Accepted
    cbv
  refine ⟨haccepted, by decide +kernel, fun hall => ?_⟩
  have hstray : (Value.pointer ⟨0, 1, none⟩).IsStrayNull := ⟨rfl, by decide⟩
  exact (Value.agreesWithZero_pointer_iff _).mp (hall (.pointer ⟨0, 1, none⟩) trivial) hstray

end Program

end MiniC
