import MiniC.Proofs.Casts.Widening

set_option autoImplicit false

/-! # Fixed-width arithmetic and truncating division

Wrapping keeps the low bits of an integer and reads the highest of them as a sign in a signed type.
The result is the only integer of the type that differs from the given one by a multiple of two to
the power of the width, so that sums, differences, products and combined bits may be wrapped at any
time. A quotient may not: it is wrapped once, after the operands were divided as they are. Still, a
quotient times the divisor, plus the remainder, is the dividend in the common type, since wrapping
is the only thing that can come between. -/

namespace MiniC

/-! ## The low bits of an integer -/

/-- The number that the lowest bits of an integer stand for. In a signed type, it is negative if the
highest of these bits is set. -/
def lowBits (n : Int) (width : Nat) (signed : Bool) : Int :=
  let low := n.land (2 ^ width - 1)
  if signed ∧ low >>> (width - 1) ≠ 0 then low - 2 ^ width else low

/-- A mask of ones keeps the remainder of a division by the power of two above it. -/
theorem land_mask (n : Int) (width : Nat) : n.land (2 ^ width - 1) = n % 2 ^ width := by
  have hpos : 0 < 2 ^ width := Nat.two_pow_pos width
  have hmask : (2 : Int) ^ width - 1 = Int.ofNat (2 ^ width - 1) := by
    rw [Int.ofNat_eq_natCast, Nat.cast_sub hpos]
    push_cast
    rfl
  rw [hmask]
  cases n with
  | ofNat m =>
    change ((m &&& (2 ^ width - 1) : Nat) : Int) = (m : Int) % 2 ^ width
    rw [Nat.and_two_pow_sub_one_eq_mod]
    push_cast
    rfl
  | negSucc m =>
    -- the bits of a negative integer are those of its complement turned over
    have hlow : m % 2 ^ width + 1 ≤ 2 ^ width := Nat.mod_lt m hpos
    have hdiff : Nat.ldiff (2 ^ width - 1) m = 2 ^ width - (m % 2 ^ width + 1) := by
      refine Nat.eq_of_testBit_eq fun i => ?_
      rw [Nat.testBit_ldiff, Nat.testBit_two_pow_sub_one, Nat.testBit_two_pow_sub_succ hlow,
        Nat.testBit_mod_two_pow]
      cases decide (i < width) <;> simp
    calc Int.land (Int.negSucc m) (Int.ofNat (2 ^ width - 1))
        = (Nat.ldiff (2 ^ width - 1) m : Int) := rfl
      _ = 2 ^ width - (m % 2 ^ width + 1) := by
        rw [hdiff, Nat.cast_sub hlow]
        push_cast
        rfl
      _ = Int.negSucc m % 2 ^ width := by
        rw [Int.negSucc_emod m (Int.pow_pos (by decide))]
        omega

theorem wrap_eq_lowBits (n : Int) {width : Nat} (hpos : 1 ≤ width) (signed : Bool) :
    wrap n width signed = lowBits n width signed := by
  rw [lowBits, land_mask]
  cases signed with
  | false => simp [wrap]
  | true =>
    obtain ⟨k, rfl⟩ := Nat.exists_eq_add_of_le' hpos
    have hpow : ((Nat.pow 2 (k + 1) : Nat) : Int) = 2 ^ (k + 1) := Nat.cast_pow 2 (k + 1)
    have hhalf : ((2 : Int) ^ (k + 1) + 1) / 2 = 2 ^ k := by
      rw [Int.pow_succ]
      omega
    have hnonneg : 0 ≤ n % 2 ^ (k + 1) := Int.emod_nonneg n (by positivity)
    have htop : (n % 2 ^ (k + 1)) >>> k = 0 ↔ n % 2 ^ (k + 1) < 2 ^ k := by
      rw [Int.shiftRight_eq_div_pow, Nat.cast_pow, Nat.cast_ofNat]
      have hquotient := Int.ediv_nonneg hnonneg (by positivity : (0 : Int) ≤ 2 ^ k)
      have hlt := Int.ediv_lt_iff_lt_mul (a := n % 2 ^ (k + 1)) (b := 1)
        (by positivity : (0 : Int) < 2 ^ k)
      omega
    simp only [wrap, if_true, Int.bmod_def, hpow, hhalf, Nat.add_sub_cancel, true_and, ne_eq, htop,
      ite_not]

namespace MachineInt

/-! ## Wrapping -/

/-- What an integer is wrapped to is the only integer of the type with the same residue. -/
theorem eq_wrap_iff {n v : Int} {width : Nat} (hpos : 1 ≤ width) {signed : Bool} :
    n = wrap v width signed ↔ InRange ⟨n, width, signed⟩ ∧ n ≡ v [ZMOD 2 ^ width] := by
  have hpow : ((Nat.pow 2 width : Nat) : Int) = 2 ^ width := Nat.cast_pow 2 width
  rw [← hpow]
  constructor
  · rintro rfl
    exact ⟨inRange_ofInt width signed v, wrap_emod v width signed⟩
  · rintro ⟨hrange, hcongr⟩
    calc n = wrap n width signed := (wrap_eq_self hpos hrange).symm
      _ = wrap v width signed := wrap_congr hcongr signed

/-- The operands of an operator that neither shifts nor divides may be wrapped first if its result
is wrapped to a type that is not wider. -/
theorem wrap_exact {op : ArithOp} (hshift : ¬op.isShift) (hdivides : ¬op.divides) (x y : Int)
    {width width₁ width₂ : Nat} (h₁ : width ≤ width₁) (h₂ : width ≤ width₂)
    (signed signed₁ signed₂ : Bool) :
    wrap (op.exact (wrap x width₁ signed₁) (wrap y width₂ signed₂)) width signed =
      wrap (op.exact x y) width signed :=
  wrap_congr (exact_emod hshift hdivides (wrap_emod_of_le h₁ x signed₁)
    (wrap_emod_of_le h₂ y signed₂)) signed

/-! ## Division -/

/-- Two integers are the quotient and the remainder of a division that is cut off towards zero. -/
structure IsDivision (a b q r : Int) : Prop where
  eq : a = q * b + r
  lt : |r| < |b|
  sign : r = 0 ∨ r.sign = a.sign

theorem isDivision_tdiv (a : Int) {b : Int} (hb : b ≠ 0) :
    IsDivision a b (a.tdiv b) (a.tmod b) where
  eq := (Int.tdiv_mul_add_tmod a b).symm
  lt := by
    rw [Int.abs_eq_natAbs, Int.abs_eq_natAbs, Int.natAbs_tmod]
    exact_mod_cast Nat.mod_lt _ (Int.natAbs_pos.mpr hb)
  sign := by
    rw [Int.sign_tmod, ← Int.dvd_iff_tmod_eq_zero]
    split
    · exact .inl ‹_›
    · exact .inr rfl

example : divide (-7) 2 = .ok (-3, -1) := rfl

/-! ## Operators on the common type -/

section Common

variable {a b d : MachineInt}

/-- The common type of two integers is the same again for an integer of that type and one that has
no wider type, nor an unsigned one as wide unless the common type is unsigned. -/
theorem ofCommon_ofCommon (k n : Int) (hwidth : d.width ≤ commonWidth a b)
    (hsigned : commonSigned a b → d.signedIn (commonWidth a b)) :
    ofCommon (ofCommon a b k) d n = ofCommon a b n := by
  have hplain : plainWidth ≤ commonWidth a b := Nat.le_max_right _ _
  have hcommon : commonWidth (ofCommon a b k) d = commonWidth a b := by
    change max (max (commonWidth a b) d.width) plainWidth = commonWidth a b
    omega
  have hkept : (ofCommon a b k).signedIn (commonWidth a b) = commonSigned a b := by
    simp [signedIn, ofCommon, ofInt]
  rw [ofCommon, hcommon, commonSigned, hcommon, hkept, Bool.and_eq_left_iff_imp.mpr hsigned]
  rfl

theorem ofCommon_right (k n : Int) : ofCommon (ofCommon a b k) b n = ofCommon a b n :=
  ofCommon_ofCommon k n (by rw [commonWidth]; omega) fun h => ((Bool.and_eq_true _ _).mp h).2

theorem ofCommon_both (k l n : Int) :
    ofCommon (ofCommon a b k) (ofCommon a b l) n = ofCommon a b n :=
  ofCommon_ofCommon k n (Nat.le_refl _) fun h => by simp [signedIn, ofCommon, ofInt, h]

/-- An operator that neither shifts nor divides yields the same on operands that were brought to
their common type before. -/
theorem arith_ofCommon {op : ArithOp} (hshift : ¬op.isShift) (hdivides : ¬op.divides) :
    arith op (ofCommon a b a.value) (ofCommon a b b.value) = arith op a b := by
  rw [arith_eq_exact hshift hdivides, arith_eq_exact hshift hdivides, ofCommon_both]
  exact congrArg Except.ok <| ofCommon_congr <|
    exact_emod hshift hdivides (wrap_emod _ _ _) (wrap_emod _ _ _)

/-- A quotient times the divisor, plus the remainder, is the dividend in the common type, where the
quotient, the product and the remainder are wrapped in between. -/
theorem arith_recompose (a : MachineInt) (hb : b.value ≠ 0) :
    ∃ q p r, arith .div a b = .ok q ∧ arith .mul q b = .ok p ∧ arith .rem a b = .ok r ∧
      arith .add p r = .ok (ofCommon a b a.value) := by
  let q := a.value.tdiv b.value
  let r := a.value.tmod b.value
  refine ⟨ofCommon a b q, ofCommon a b (q * b.value), ofCommon a b r, ?_, ?_, ?_, ?_⟩
  · rw [arith_of_divides rfl, if_neg hb]
    rfl
  · have hcongr : (ofCommon a b q).value * b.value ≡ q * b.value
        [ZMOD Nat.pow 2 (commonWidth a b)] := Int.ModEq.mul_right _ (wrap_emod q _ _)
    rw [arith, ofCommon_right, ofCommon_congr hcongr]
  · rw [arith_of_divides rfl, if_neg hb]
    rfl
  · have hcongr : (ofCommon a b (q * b.value)).value + (ofCommon a b r).value ≡ q * b.value + r
        [ZMOD Nat.pow 2 (commonWidth a b)] :=
      Int.ModEq.add (wrap_emod (q * b.value) _ _) (wrap_emod r _ _)
    rw [arith, ofCommon_both, ofCommon_congr hcongr, ← (isDivision_tdiv a.value hb).eq]

end Common

end MachineInt

/-! ## Evaluation -/

/-- The expression `(left / right) * right + left % right`. -/
def Expr.recomposed (left right : Expr) : Expr :=
  .binary (.arith .add)
    (.binary (.arith .mul) (.parens (.binary (.arith .div) left right)) right)
    (.binary (.arith .rem) left right)

namespace Run

variable {ctx : Context} {left right : Expr} {m : Machine} {a b c : MachineInt}

/-- What `(left / right) * right + left % right` computes from two values. -/
def recompose (left right : Value) (pos : Position) : Run Value := do
  let product ← arith .mul (← arith .div left right pos) right pos
  arith .add product (← arith .rem left right pos) pos

theorem exec_arith_ints {op : ArithOp} (h : MachineInt.arith op a b = .ok c) (pos : Position)
    (m : Machine) : (arith op (.int a) (.int b) pos).exec m = .ok (.int c) m := by
  have hints : arith op (.int a) (.int b) pos = lift ((MachineInt.arith op a b).map .int) := by
    cases op <;> rfl
  rw [hints, h]
  rfl

theorem exec_recompose (a : MachineInt) (hb : b.value ≠ 0) (pos : Position) (m : Machine) :
    (recompose (.int a) (.int b) pos).exec m = .ok (.int (.ofCommon a b a.value)) m := by
  obtain ⟨q, p, r, hdiv, hmul, hrem, hadd⟩ := MachineInt.arith_recompose a hb
  rw [recompose, Traced.exec_bind_of_ok _ (exec_arith_ints hdiv pos m),
    Traced.exec_bind_of_ok _ (exec_arith_ints hmul pos m),
    Traced.exec_bind_of_ok _ (exec_arith_ints hrem pos m)]
  exact exec_arith_ints hadd pos m

theorem exec_eval_arith {op : ArithOp} {m₁ m₂ : Machine}
    (hleft : (eval ctx left).exec m = .ok (.int a) m₁)
    (hright : (eval ctx right).exec m₁ = .ok (.int b) m₂) (h : MachineInt.arith op a b = .ok c) :
    (eval ctx (.binary (.arith op) left right)).exec m = .ok (.int c) m₂ := by
  rw [eval, Traced.exec_bind_of_ok _ hleft, Traced.exec_bind_of_ok _ hright]
  exact exec_arith_ints h left.pos m₂

theorem exec_eval_recomposed (hb : b.value ≠ 0) (hleft : (eval ctx left).exec m = .ok (.int a) m)
    (hright : (eval ctx right).exec m = .ok (.int b) m) :
    (eval ctx (left.recomposed right)).exec m = .ok (.int (.ofCommon a b a.value)) m := by
  obtain ⟨q, p, r, hdiv, hmul, hrem, hadd⟩ := MachineInt.arith_recompose a hb
  have hquotient : (eval ctx (.parens (.binary (.arith .div) left right))).exec m =
      .ok (.int q) m := by
    rw [eval]
    exact exec_eval_arith hleft hright hdiv
  have hproduct := exec_eval_arith hquotient hright hmul
  have hremainder := exec_eval_arith hleft hright hrem
  exact exec_eval_arith hproduct hremainder hadd

/-! ## Arithmetic of fixed width -/

/-- Wrapping takes the low bits of an integer and yields the only integer of the type with the same
residue. A second wrap changes nothing, nor does one to a wider type before, nor one of the operands
of an operator that neither shifts nor divides: what such an operator yields is the exact result in
the common type, of the given operands as of those that were brought to that type. A division by
another number than zero yields a quotient cut off towards zero, and a remainder that is zero or has
the sign of the dividend. The quotient times the divisor, plus the remainder, is the dividend as the
usual conversions, and a conversion to any type of that width and signedness, bring it to the common
type; that holds of the values and of the expression, if its two sides change nothing. -/
theorem fixed_width_arithmetic :
    (∀ (v : Int) (width : Nat) (signed : Bool), 1 ≤ width →
      wrap v width signed = lowBits v width signed ∧
      (∀ n, n = wrap v width signed ↔
        MachineInt.InRange ⟨n, width, signed⟩ ∧ n ≡ v [ZMOD 2 ^ width]) ∧
      wrap (wrap v width signed) width signed = wrap v width signed ∧
      (∀ wider signed', width ≤ wider →
        wrap (wrap v wider signed') width signed = wrap v width signed) ∧
      ∀ (op : ArithOp) (u : Int) (signed₁ signed₂ : Bool), ¬op.isShift → ¬op.divides →
        wrap (op.exact (wrap v width signed₁) (wrap u width signed₂)) width signed =
          wrap (op.exact v u) width signed) ∧
    (∀ (op : ArithOp) (a b : MachineInt), ¬op.isShift → ¬op.divides →
      MachineInt.arith op a b = .ok (.ofCommon a b (op.exact a.value b.value)) ∧
      MachineInt.arith op (.ofCommon a b a.value) (.ofCommon a b b.value) =
        MachineInt.arith op a b) ∧
    (∀ a b : Int, b ≠ 0 →
      ∃ q r, MachineInt.divide a b = .ok (q, r) ∧ MachineInt.IsDivision a b q r) ∧
    ∀ a b : MachineInt, a.InRange → b.value ≠ 0 →
      let converted : Value := .int (.toUsual a b a.promote.value)
      (∀ pos m, (recompose (.int a) (.int b) pos).exec m = .ok converted m) ∧
      (∀ (t : CType) pos m, t.isInteger → t.width = MachineInt.usualWidth a b →
        t.isUnsigned = !MachineInt.usualSigned a b →
        (convert t (.int a) pos).exec m = .ok converted m) ∧
      ∀ (ctx : Context) (left right : Expr) m, (eval ctx left).exec m = .ok (.int a) m →
        (eval ctx right).exec m = .ok (.int b) m →
        (eval ctx (left.recomposed right)).exec m = .ok converted m := by
  refine ⟨fun v width signed hpos => ⟨wrap_eq_lowBits v hpos signed,
      fun n => MachineInt.eq_wrap_iff hpos, MachineInt.wrap_wrap_of_le (Nat.le_refl width),
      fun wider signed' hle => MachineInt.wrap_wrap_of_le hle,
      fun op u signed₁ signed₂ hshift hdivides => MachineInt.wrap_exact hshift hdivides v u
        (Nat.le_refl width) (Nat.le_refl width) signed signed₁ signed₂⟩,
    fun op a b hshift hdivides => ⟨MachineInt.arith_eq_exact hshift hdivides a b,
      MachineInt.arith_ofCommon hshift hdivides⟩,
    fun a b hb => ⟨a.tdiv b, a.tmod b, if_neg hb, MachineInt.isDivision_tdiv a hb⟩,
    fun a b ha hb => ?_⟩
  intro converted
  have hconverted : converted = .int (.ofCommon a b a.value) := by
    rw [← MachineInt.toUsual_eq, ← MachineInt.promote_value ha]
  rw [hconverted]
  refine ⟨exec_recompose a hb, fun t pos m ht hwidth hunsigned => ?_,
    fun ctx left right m hleft hright => exec_eval_recomposed hb hleft hright⟩
  rw [exec_convert_int ht, hwidth, hunsigned, Bool.not_not, ← MachineInt.toUsual,
    MachineInt.toUsual_eq]

/-- Numbers beyond the range of a character, a negative dividend, and the least plain integer with
minus one as the divisor, as values and in two variables: its quotient is out of range. -/
theorem fixed_width_arithmetic_least :
    let ctx : Context := ⟨fun _ => none, fun _ _ _ => throw .unfinished⟩
    let least : Value := .int ⟨-2147483648, 32, true⟩
    let m := (Machine.start.bind 1 .int least).bind 2 .int (.int (.plain (-1)))
    let x : Expr := .identifier (Program.sampleName "x" 1 1 0)
    let y : Expr := .identifier (Program.sampleName "y" 2 5 1)
    wrap 384 8 true = lowBits 384 8 true ∧
    wrap (wrap 384 16 false) 8 true = wrap 384 8 true ∧
    wrap (ArithOp.bitXor.exact (wrap 384 8 true) (wrap (-1) 8 false)) 8 true =
      wrap (ArithOp.bitXor.exact 384 (-1)) 8 true ∧
    (∃ q r, MachineInt.divide (-7) 2 = .ok (q, r) ∧ MachineInt.IsDivision (-7) 2 q r) ∧
    (recompose least (.int (.plain (-1))) .start).exec m = .ok least m ∧
    (convert .int least none).exec m = .ok least m ∧
    (eval ctx (x.recomposed y)).exec m = .ok least m := by
  intro ctx least m x y
  obtain ⟨hwrap, -, hdivide, hrecompose⟩ := fixed_width_arithmetic
  obtain ⟨hlow, -, -, hnarrow, hoperands⟩ := hwrap 384 8 true (by decide)
  obtain ⟨hvalues, hconvert, heval⟩ :=
    hrecompose ⟨-2147483648, 32, true⟩ (.plain (-1)) (by decide) (by decide)
  exact ⟨hlow, hnarrow 16 false (by decide),
    hoperands .bitXor (-1) true false (by decide) (by decide), hdivide (-7) 2 (by decide),
    hvalues .start m, hconvert .int none m rfl rfl rfl, heval ctx x y m rfl rfl⟩

end Run

end MiniC
