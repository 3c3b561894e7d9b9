import Mathlib.Tactic.Linarith
import MiniC.Value.Arith
import MiniC.Value.Convert
import MiniC.Value.Literal

set_option autoImplicit false

/-! # Integers in the range of their type

What arithmetic on integers computes is wrapped to the type of the result, and so is an integer that
is converted to a type. The only integers that come about without being wrapped are zeros, truth
values, the codes of characters, sizes, and distances of pointers. No type is wider than the widest
one of an operand, or of a declaration. -/

namespace MiniC

namespace MachineInt

/-! ## Wrapping -/

theorem inRange_ofInt (width : Nat) (signed : Bool) (n : Int) : (ofInt width signed n).InRange := by
  have hpos : 0 < 2 ^ width := Nat.two_pow_pos width
  cases signed with
  | false =>
    refine ⟨Int.emod_nonneg n (Int.natCast_ne_zero.mpr hpos.ne'), ?_⟩
    have hlt := Int.emod_lt_of_pos n (Int.natCast_pos.mpr hpos)
    simpa [ofInt, wrap] using hlt
  | true =>
    have hlow := Int.le_bmod (x := n) hpos
    have hhigh := Int.bmod_lt (x := n) hpos
    cases width with
    | zero =>
      have hzero : Int.bmod n 1 = 0 := Int.bmod_one n
      simp [InRange, ofInt, wrap, hzero]
    | succ k =>
      have hhalf : ((2 ^ (k + 1) : Nat) : Int) = 2 * 2 ^ k := by
        rw [Nat.pow_succ]
        push_cast
        exact Int.mul_comm _ _
      rw [hhalf] at hlow hhigh
      have hbounds : -2 ^ k ≤ Int.bmod n (2 ^ (k + 1)) ∧ Int.bmod n (2 ^ (k + 1)) < 2 ^ k := by
        omega
      simpa [InRange, ofInt, wrap] using hbounds

theorem inRange_zero (width : Nat) (signed : Bool) : InRange ⟨0, width, signed⟩ := by
  cases signed <;> simp [InRange]

/-- Whether an integer is in the range of its type, and that has no more than some bits. -/
structure Within (n : MachineInt) (width : Nat) : Prop where
  inRange : n.InRange
  width_le : n.width ≤ width

theorem within_ofInt {width bound : Nat} (h : width ≤ bound) (signed : Bool) (n : Int) :
    (ofInt width signed n).Within bound :=
  ⟨inRange_ofInt width signed n, h⟩

theorem within_zero {width bound : Nat} (h : width ≤ bound) (signed : Bool) :
    Within ⟨0, width, signed⟩ bound :=
  ⟨inRange_zero width signed, h⟩

theorem within_ofBool (b : Bool) : (ofBool b).Within 64 := by
  cases b <;> exact ⟨by decide, by decide⟩

theorem within_plain_one : (plain 1).Within 64 :=
  ⟨by decide, by decide⟩

theorem Within.natAbs_le {n : MachineInt} {width : Nat} (h : n.Within width) :
    n.value.natAbs ≤ 2 ^ width := by
  have hrange := h.inRange
  have hpower : (2 : Int) ^ n.width ≤ 2 ^ width := pow_le_pow_right₀ (by decide) h.width_le
  suffices |n.value| ≤ 2 ^ width by
    rw [Int.abs_eq_natAbs] at this
    exact_mod_cast this
  unfold InRange at hrange
  split at hrange
  · obtain ⟨hlow, hhigh⟩ : -2 ^ (n.width - 1) ≤ n.value ∧ n.value < 2 ^ (n.width - 1) := hrange
    have hhalf : (2 : Int) ^ (n.width - 1) ≤ 2 ^ n.width :=
      pow_le_pow_right₀ (by decide) (Nat.sub_le _ _)
    exact abs_le.mpr ⟨by omega, by omega⟩
  · obtain ⟨hlow, hhigh⟩ : 0 ≤ n.value ∧ n.value < 2 ^ n.width := hrange
    exact abs_le.mpr ⟨by omega, by omega⟩

/-- An integer in the range of a type that can be declared is not too large for a floating
number. -/
theorem Within.exceeds_eq_false {n : MachineInt} (h : n.Within 64) :
    Binary64.exceeds n.value = false := by
  have hshift (k : Nat) (hk : 64 < k) : n.value.natAbs >>> k = 0 :=
    Nat.shiftRight_eq_zero _ _
      (Nat.lt_of_le_of_lt h.natAbs_le (Nat.pow_lt_pow_right (by decide) hk))
  rw [Binary64.exceeds, hshift 970 (by decide)]
  rfl

/-! ## Arithmetic -/

theorem width_le_common (a b : MachineInt) : a.width ≤ commonWidth a b :=
  Nat.le_trans (Nat.le_max_left _ _) (Nat.le_max_left _ _)

theorem promotedWidth_le_common (a b : MachineInt) : a.promotedWidth ≤ commonWidth a b :=
  Nat.max_le.mpr ⟨width_le_common a b, Nat.le_max_right _ _⟩

/-- What arithmetic on two integers computes is in the range of a type as wide as their common one
at most, whatever the two are. -/
theorem within_arith {op : ArithOp} {a b c : MachineInt} (h : arith op a b = .ok c) :
    c.Within (commonWidth a b) := by
  have hdivide : ∀ f : Int × Int → Int,
      (divide a.value b.value).map (fun q => ofCommon a b (f q)) = .ok c →
        c.Within (commonWidth a b) := by
    intro f hf
    cases hq : divide a.value b.value with
    | error cause =>
      rw [hq] at hf
      cases hf
    | ok q =>
      rw [hq] at hf
      cases hf
      exact within_ofInt (Nat.le_refl _) _ _
  cases op with
  | div => exact hdivide Prod.fst h
  | rem => exact hdivide Prod.snd h
  | shiftLeft =>
    rw [arith] at h
    split at h
    · cases h
    · cases h
      -- The result of a shift has the type of the promoted left operand, which is no wider.
      unfold shiftLeft
      split <;> exact within_ofInt (promotedWidth_le_common a b) _ _
  | shiftRight =>
    rw [arith] at h
    split at h
    · cases h
    · cases h
      exact within_ofInt (promotedWidth_le_common a b) _ _
  | _ =>
    cases h
    exact within_ofInt (Nat.le_refl _) _ _

theorem within_complement (a : MachineInt) : a.complement.Within (commonWidth a a) :=
  within_ofInt (promotedWidth_le_common a a) _ _

end MachineInt

/-! ## Values -/

/-- An integer that an operator computes from two operands is in the range of a type as wide as their
common one at most, if they are integers, or it is the distance of two pointers into one buffer. -/
theorem Operands.within_eval {op : ArithOp} {operands : Operands} {n : MachineInt}
    (h : operands.eval op = .ok (.int n)) :
    (∃ a b, operands = .ints a b ∧ n.Within (MachineInt.commonWidth a b)) ∨
      ∃ a b, operands = .pointers a b ∧ a.buffer = b.buffer ∧
        n = ⟨a.index - b.index, 64, true⟩ := by
  cases operands with
  | ints a b =>
    rw [eval] at h
    cases harith : MachineInt.arith op a b with
    | error cause =>
      rw [harith] at h
      cases h
    | ok c =>
      rw [harith] at h
      cases h
      exact .inl ⟨a, b, rfl, MachineInt.within_arith harith⟩
  | singles x y =>
    rw [eval] at h
    cases hx : floatArith op x y <;> rw [hx] at h <;> cases h
  | doubles x y =>
    rw [eval] at h
    cases hx : floatArith op x y <;> rw [hx] at h <;> cases h
  | pointerInt p n => cases op <;> cases h
  | intPointer n p => cases op <;> cases h
  | pointers p q =>
    cases op with
    | sub =>
      rw [eval] at h
      split at h
      · rename_i hbuffer
        cases h
        exact .inr ⟨p, q, rfl, hbuffer, rfl⟩
      · cases h
    | _ => cases h

theorem Operands.of?_of_select {op : ArithOp} {left right : Value} {operands : Operands}
    (h : select op left right = .ok operands) : of? left right = some operands := by
  unfold select at h
  cases hof : of? left right with
  | none =>
    rw [hof] at h
    cases h
  | some operands =>
    rw [hof] at h
    dsimp only at h
    split at h
    · cases h
    · split at h
      · cases h
      · cases h
        rfl

/-- Two integers are operands only as they stand. -/
theorem Operands.select_ints {op : ArithOp} {left right : Value} {a b : MachineInt}
    (h : Operands.select op left right = .ok (.ints a b)) : left = .int a ∧ right = .int b := by
  have hof := of?_of_select h
  cases left <;> cases right <;> cases hof
  exact ⟨rfl, rfl⟩

/-- Two pointers are operands only as they stand. -/
theorem Operands.select_pointers {op : ArithOp} {left right : Value} {a b : Pointer}
    (h : Operands.select op left right = .ok (.pointers a b)) :
    left = .pointer a ∧ right = .pointer b := by
  have hof := of?_of_select h
  cases left <;> cases right <;> cases hof
  exact ⟨rfl, rfl⟩

theorem CType.width_le (t : CType) : t.width ≤ 64 := by
  unfold CType.width
  split <;> decide

namespace Value

theorem within_toInteger {t : CType} {v : Value} {n : MachineInt}
    (h : v.toInteger t = .ok (.int n)) : n.Within 64 := by
  have hcut : ∀ x : Float, toInteger t (.float x) = .ok (.int n) → n.Within 64 := by
    intro x hx
    simp only [toInteger] at hx
    split at hx
    · cases hx
    · cases hx
      exact MachineInt.within_ofInt t.width_le _ _
  cases v with
  | int k =>
    cases h
    exact MachineInt.within_ofInt t.width_le _ _
  | float x => exact hcut x h
  | double x => exact hcut x h
  | _ => cases h

/-- An integer that comes of a conversion is in range, or was not converted at all. -/
theorem within_convertScalar {t : CType} {v : Value} {n : MachineInt}
    (h : v.convertScalar t = .ok (.int n)) : n.Within 64 ∨ v = .int n := by
  unfold convertScalar at h
  split at h
  · cases h
    exact .inr rfl
  · split at h
    · cases v with
      | int k =>
        rw [toPointer] at h
        split at h <;> cases h
      | _ => cases h
    · split at h
      · unfold toFloating at h
        split at h
        · cases h
        · split at h <;> cases h
      · exact .inl (within_toInteger h)

theorem within_zeroScalar {t : CType} {n : MachineInt} (h : zeroScalar t = .ok (.int n)) :
    n.Within 64 := by
  unfold zeroScalar at h
  split at h
  · cases h
  · split at h
    · split at h <;> cases h
    · split at h
      · cases h
        exact MachineInt.within_zero t.width_le _
      · cases h

end Value

/-- A literal that denotes an integer denotes one in range or the code of a quoted character. -/
theorem Lexeme.within_value {l : Lexeme} {kind : LiteralKind} {n : MachineInt}
    (h : l.value kind = .int n) : n.Within 64 ∨ ∃ c ∈ l.codePoints, n = .ofCode c := by
  have hchar : MachineInt.charWidth ≤ 64 := by decide
  cases kind with
  | integer size signed radix =>
    cases h
    exact .inl (MachineInt.within_ofInt (by cases size <;> decide) _ _)
  | string =>
    cases h
    exact .inl (MachineInt.within_zero hchar _)
  | char =>
    cases h
    cases hcodes : l.codePoints with
    | nil => exact .inl (MachineInt.within_zero hchar _)
    | cons c rest => exact .inr ⟨c, List.mem_cons_self, rfl⟩
  | float => cases h
  | double => cases h

/-- The characters of a literal are the codes of its quoted characters and a zero. -/
theorem Lexeme.within_of_mem_characters {l : Lexeme} {v : Value} (h : v ∈ l.characters) :
    ∃ n, v = .int n ∧ (n.Within 64 ∨ ∃ c ∈ l.codePoints, n = .ofCode c) := by
  obtain ⟨c, hc, rfl⟩ := List.mem_map.mp h
  refine ⟨_, rfl, ?_⟩
  rcases List.mem_append.mp hc with hc | hc
  · exact .inr ⟨c, hc, rfl⟩
  · rw [List.mem_singleton.mp hc]
    exact .inl (MachineInt.within_zero (by decide) _)

end MiniC
