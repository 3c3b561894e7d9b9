import Mathlib.Data.Int.Bitwise
import Mathlib.Data.Int.ModEq
import MiniC.Proofs.Ranges.Integers
import MiniC.Value.Compare

set_option autoImplicit false

/-! # The usual arithmetic conversions

Two integers are brought to a common type before an operator applies to them: each is promoted to at
least the plain type, then both are converted to the wider type of the two, which is unsigned if an
operand of that width is. Here stands this rule by itself, beside the arithmetic and the comparison
of integers, which take the values as they are and convert at most the result. Sums, differences,
products and combined bits are the same either way; quotients, remainders and relations are where no
operand changes its value when it is converted. -/

namespace MiniC

/-! ## Exact operators -/

/-- Whether an operator divides. -/
def ArithOp.divides : ArithOp → Bool
  | .div | .rem => true
  | _ => false

/-- The exact result of an operator on two integers. Quotients are cut off towards zero, and bits
are those of the two's complement without an end. -/
def ArithOp.exact (op : ArithOp) (x y : Int) : Int :=
  match op with
  | .add => x + y
  | .sub => x - y
  | .mul => x * y
  | .div => x.tdiv y
  | .rem => x.tmod y
  | .bitAnd => x.land y
  | .bitXor => x.xor y
  | .bitOr => x.lor y
  | .shiftLeft => x * 2 ^ y.toNat
  | .shiftRight => x / 2 ^ y.toNat

/-- Whether two integers are in a relation. -/
def RelOp.relates (op : RelOp) (x y : Int) : Bool :=
  match op with
  | .eq => x = y
  | .ne => x ≠ y
  | .gt => x > y
  | .lt => x < y
  | .ge => x ≥ y
  | .le => x ≤ y

namespace MachineInt

/-! ## Conversion of the operands -/

/-- An integer of at least the plain type. The plain type has all values of the narrower ones. -/
def promote (a : MachineInt) : MachineInt :=
  if a.width < plainWidth then ofInt plainWidth true a.value else a

/-- The width of the common type: the wider one of the promoted operands. -/
def usualWidth (a b : MachineInt) : Nat :=
  max a.promote.width b.promote.width

/-- The signedness of the common type: unsigned if a promoted operand of its width is. -/
def usualSigned (a b : MachineInt) : Bool :=
  !(a.promote.width = usualWidth a b && !a.promote.signed ||
    b.promote.width = usualWidth a b && !b.promote.signed)

/-- An integer of the common type of two integers. -/
def toUsual (a b : MachineInt) (n : Int) : MachineInt :=
  ofInt (usualWidth a b) (usualSigned a b) n

/-- The first operand in the common type. -/
def usualLeft (a b : MachineInt) : Int := (toUsual a b a.promote.value).value

/-- The second operand in the common type. -/
def usualRight (a b : MachineInt) : Int := (toUsual a b b.promote.value).value

/-- What an operator yields on operands that were brought to their common type. -/
def usualArith (op : ArithOp) (a b : MachineInt) : Except Fault MachineInt :=
  if op.divides ∧ usualRight a b = 0 then .error .divisionByZero
  else .ok (toUsual a b (op.exact (usualLeft a b) (usualRight a b)))

/-- Whether two operands are in a relation once they were brought to their common type. -/
def usualCompare (op : RelOp) (a b : MachineInt) : Bool :=
  op.relates (usualLeft a b) (usualRight a b)

/-- Whether the usual conversions leave two integers as they are: their common type is signed, or
neither of them is negative. -/
def Kept (a b : MachineInt) : Prop :=
  usualSigned a b ∨ 0 ≤ a.value ∧ 0 ≤ b.value

instance (a b : MachineInt) : Decidable (Kept a b) := by
  unfold Kept; infer_instance

/-! ## Wrapping -/

theorem wrap_emod (n : Int) (width : Nat) (signed : Bool) :
    wrap n width signed % Nat.pow 2 width = n % Nat.pow 2 width := by
  cases signed with
  | false => exact Int.emod_emod_of_dvd n (Int.dvd_refl _)
  | true => exact Int.bmod_emod

/-- Wrapping to a type keeps the residues that narrower types depend on. -/
theorem wrap_emod_of_le {width wider : Nat} (h : width ≤ wider) (n : Int) (signed : Bool) :
    wrap n wider signed % Nat.pow 2 width = n % Nat.pow 2 width := by
  have hdvd : ((Nat.pow 2 width : Nat) : Int) ∣ Nat.pow 2 wider :=
    Int.natCast_dvd_natCast.mpr (Nat.pow_dvd_pow 2 h)
  calc wrap n wider signed % Nat.pow 2 width
      = wrap n wider signed % Nat.pow 2 wider % Nat.pow 2 width :=
        (Int.emod_emod_of_dvd _ hdvd).symm
    _ = n % Nat.pow 2 wider % Nat.pow 2 width := by rw [wrap_emod]
    _ = n % Nat.pow 2 width := Int.emod_emod_of_dvd _ hdvd

theorem wrap_congr {m n : Int} {width : Nat} (h : m % Nat.pow 2 width = n % Nat.pow 2 width)
    (signed : Bool) : wrap m width signed = wrap n width signed := by
  cases signed with
  | false => exact h
  | true =>
    calc Int.bmod m (Nat.pow 2 width)
        = Int.bmod (m % Nat.pow 2 width) (Nat.pow 2 width) := (Int.emod_bmod m _).symm
      _ = Int.bmod (n % Nat.pow 2 width) (Nat.pow 2 width) := by rw [h]
      _ = Int.bmod n (Nat.pow 2 width) := Int.emod_bmod n _

/-- An integer that lies in the range of a type is the same in that type. -/
theorem wrap_eq_self {n : Int} {width : Nat} {signed : Bool} (hpos : 0 < width)
    (h : InRange ⟨n, width, signed⟩) : wrap n width signed = n := by
  cases signed with
  | false => exact Int.emod_eq_of_lt h.1 (by simpa using h.2)
  | true =>
    obtain ⟨k, rfl⟩ := Nat.exists_eq_succ_of_ne_zero hpos.ne'
    have hlow : -2 ^ k ≤ n := by simpa [InRange] using h.1
    have hhigh : n < 2 ^ k := by simpa [InRange] using h.2
    have hhalf : ((2 ^ (k + 1) : Nat) : Int) = 2 * 2 ^ k := by
      rw [Nat.pow_succ]
      push_cast
      exact Int.mul_comm _ _
    exact Int.bmod_eq_of_le_mul_two (y := 2 ^ (k + 1)) (by omega) (by omega)

/-- The range of a type lies within that of a wider one, apart from the negative integers if the
wider one has none. -/
theorem InRange.widen {a : MachineInt} (ha : a.InRange) {width : Nat} {signed : Bool}
    (hwidth : a.width ≤ width) (hsigned : signed → a.signed ∨ a.width < width)
    (hkept : signed ∨ 0 ≤ a.value) : InRange ⟨a.value, width, signed⟩ := by
  have hpow : ∀ {m n : Nat}, m ≤ n → (2 : Int) ^ m ≤ 2 ^ n := fun h =>
    pow_le_pow_right₀ (by decide) h
  obtain ⟨n, w, s⟩ := a
  dsimp only at hwidth hsigned hkept
  cases s with
  | true =>
    obtain ⟨hlow, hhigh⟩ : -2 ^ (w - 1) ≤ n ∧ n < 2 ^ (w - 1) := ha
    cases signed with
    | true =>
      have hle := hpow (Nat.sub_le_sub_right hwidth 1)
      exact ⟨by show -2 ^ (width - 1) ≤ n; omega, by show n < 2 ^ (width - 1); omega⟩
    | false =>
      have hle := hpow (Nat.le_trans (Nat.sub_le w 1) hwidth)
      exact ⟨hkept.resolve_left (by decide), by show n < 2 ^ width; omega⟩
  | false =>
    obtain ⟨hlow, hhigh⟩ : 0 ≤ n ∧ n < 2 ^ w := ha
    cases signed with
    | true =>
      -- A signed type needs a bit more than an unsigned one of the same range.
      have hlt : w < width := (hsigned rfl).resolve_left (by decide)
      have hle := hpow (Nat.le_sub_one_of_lt hlt)
      have hpos : (0 : Int) < 2 ^ (width - 1) := Int.pow_pos (by decide)
      exact ⟨by show -2 ^ (width - 1) ≤ n; omega, by show n < 2 ^ (width - 1); omega⟩
    | false =>
      have hle := hpow hwidth
      exact ⟨hlow, by show n < 2 ^ width; omega⟩

/-! ## The common type -/

theorem promote_width (a : MachineInt) : a.promote.width = max a.width plainWidth := by
  unfold promote
  split
  · exact (Nat.max_eq_right (Nat.le_of_lt ‹_›)).symm
  · exact (Nat.max_eq_left (Nat.le_of_not_lt ‹_›)).symm

theorem promote_signed (a : MachineInt) :
    a.promote.signed = (a.signed || decide (a.width < plainWidth)) := by
  unfold promote
  split <;> simp_all [ofInt]

theorem promote_value {a : MachineInt} (ha : a.InRange) : a.promote.value = a.value := by
  unfold promote
  split
  · exact wrap_eq_self (by decide)
      (ha.widen (Nat.le_of_lt ‹_›) (fun _ => .inr ‹_›) (.inl rfl))
  · rfl

theorem usualWidth_eq (a b : MachineInt) : usualWidth a b = commonWidth a b := by
  rw [usualWidth, commonWidth, promote_width, promote_width]
  omega

/-- Both rules for the common type agree on its signedness: a type of its width is unsigned, or a
narrower one is not counted. -/
theorem usualSigned_eq (a b : MachineInt) : usualSigned a b = commonSigned a b := by
  have hplain : plainWidth ≤ commonWidth a b := Nat.le_max_right _ _
  have hleft : a.width ≤ commonWidth a b :=
    Nat.le_trans (Nat.le_max_left _ _) (Nat.le_max_left _ _)
  have hright : b.width ≤ commonWidth a b :=
    Nat.le_trans (Nat.le_max_right _ _) (Nat.le_max_left _ _)
  have hside : ∀ c : MachineInt, c.width ≤ commonWidth a b →
      (c.promote.width = commonWidth a b && !c.promote.signed) = !c.signedIn (commonWidth a b) := by
    intro c hc
    rw [promote_width, promote_signed, signedIn, Bool.eq_iff_iff]
    cases c.signed with
    | true => simp
    | false =>
      simp only [Bool.false_or, Bool.and_eq_true, decide_eq_true_eq, Bool.not_eq_true',
        decide_eq_false_iff_not]
      omega
  rw [usualSigned, usualWidth_eq, hside a hleft, hside b hright, ← Bool.not_and, Bool.not_not]
  rfl

theorem toUsual_eq (a b : MachineInt) (n : Int) : toUsual a b n = ofCommon a b n := by
  rw [toUsual, usualWidth_eq, usualSigned_eq, ofCommon]

theorem ofCommon_congr {a b : MachineInt} {m n : Int}
    (h : m % Nat.pow 2 (commonWidth a b) = n % Nat.pow 2 (commonWidth a b)) :
    ofCommon a b m = ofCommon a b n := by
  rw [ofCommon, ofCommon, ofInt, ofInt, wrap_congr h]

theorem usualWidth_pos (a b : MachineInt) : 0 < usualWidth a b := by
  rw [usualWidth_eq]
  exact Nat.lt_of_lt_of_le (by decide : 0 < plainWidth) (Nat.le_max_right _ _)

theorem width_le_usual {a b c : MachineInt} (hmem : c = a ∨ c = b) : c.width ≤ usualWidth a b := by
  rw [usualWidth_eq, commonWidth]
  rcases hmem with rfl | rfl <;> omega

/-- An operand is the same in the common type if that is signed or the operand is not negative. -/
theorem toUsual_value_eq_self {a b c : MachineInt} (hc : c.InRange) (hmem : c = a ∨ c = b)
    (hkept : usualSigned a b ∨ 0 ≤ c.value) : (toUsual a b c.promote.value).value = c.value := by
  rw [promote_value hc]
  refine wrap_eq_self (usualWidth_pos a b)
    (hc.widen (width_le_usual hmem) (fun hsigned => ?_) hkept)
  rw [usualSigned_eq, commonSigned, Bool.and_eq_true, signedIn, signedIn, Bool.or_eq_true,
    Bool.or_eq_true, decide_eq_true_eq, decide_eq_true_eq] at hsigned
  rw [usualWidth_eq]
  rcases hmem with rfl | rfl
  · exact hsigned.1
  · exact hsigned.2

theorem usualLeft_eq_self {a b : MachineInt} (ha : a.InRange) (hkept : Kept a b) :
    usualLeft a b = a.value :=
  toUsual_value_eq_self ha (.inl rfl) (hkept.imp_right And.left)

theorem usualRight_eq_self {a b : MachineInt} (hb : b.InRange) (hkept : Kept a b) :
    usualRight a b = b.value :=
  toUsual_value_eq_self hb (.inr rfl) (hkept.imp_right And.right)

/-- An operand keeps its residue in the common type. -/
theorem toUsual_value_emod {a b c : MachineInt} (hc : c.InRange) :
    (toUsual a b c.promote.value).value % Nat.pow 2 (commonWidth a b) =
      c.value % Nat.pow 2 (commonWidth a b) := by
  rw [promote_value hc, toUsual_eq]
  exact wrap_emod _ _ _

theorem InRange.natAbs_lt {a : MachineInt} (ha : a.InRange) {width : Nat} (hpos : 0 < width)
    (hwidth : a.width ≤ width) : a.value.natAbs < 2 ^ width := by
  have hwide : InRange ⟨a.value, width, a.signed⟩ := ha.widen hwidth .inl <| by
    cases hsigned : a.signed with
    | true => exact .inl rfl
    | false =>
      rw [InRange, hsigned] at ha
      exact .inr ha.1
  have habs : |a.value| < 2 ^ width := by
    cases hsigned : a.signed with
    | true =>
      rw [hsigned] at hwide
      obtain ⟨hlow, hhigh⟩ : -2 ^ (width - 1) ≤ a.value ∧ a.value < 2 ^ (width - 1) := hwide
      have hstrict : (2 : Int) ^ (width - 1) < 2 ^ width :=
        pow_lt_pow_right₀ (by decide) (Nat.sub_one_lt hpos.ne')
      exact abs_lt.mpr ⟨by omega, by omega⟩
    | false =>
      rw [hsigned] at hwide
      obtain ⟨hlow, hhigh⟩ : 0 ≤ a.value ∧ a.value < 2 ^ width := hwide
      exact abs_lt.mpr ⟨by omega, hhigh⟩
  rw [Int.abs_eq_natAbs] at habs
  exact_mod_cast habs

/-- An operand other than zero stays so in the common type, since it is less than two to the power
of the width away from zero. -/
theorem usualRight_eq_zero_iff {a b : MachineInt} (hb : b.InRange) :
    usualRight a b = 0 ↔ b.value = 0 := by
  constructor
  · intro hzero
    have hmod := toUsual_value_emod (a := a) (b := b) hb
    rw [show (toUsual a b b.promote.value).value = 0 from hzero, Int.zero_emod] at hmod
    refine Int.eq_zero_of_dvd_of_natAbs_lt_natAbs (Int.dvd_of_emod_eq_zero hmod.symm) ?_
    rw [← usualWidth_eq]
    exact hb.natAbs_lt (usualWidth_pos a b) (width_le_usual (.inr rfl))
  · intro hzero
    exact (toUsual_value_eq_self hb (.inr rfl) (.inr hzero.ge)).trans hzero

/-! ## Operators that need residues only -/

theorem getLsbD_ofInt (width : Nat) (n : Int) (i : Nat) :
    (BitVec.ofInt width n).getLsbD i = (decide (i < width) && n.testBit i) := by
  cases n with
  | ofNat m =>
    rw [Int.ofNat_eq_natCast, BitVec.ofInt_natCast, BitVec.getLsbD_ofNat]
    rfl
  | negSucc m =>
    rw [BitVec.ofInt_negSucc_eq_not_ofNat, BitVec.getLsbD_not, BitVec.getLsbD_ofNat]
    cases h : decide (i < width) <;> simp [Int.testBit]

theorem toInt_ofInt_congr {m n : Int} {width : Nat}
    (h : BitVec.ofInt width m = BitVec.ofInt width n) :
    m % Nat.pow 2 width = n % Nat.pow 2 width := by
  have hbmod : Int.bmod m (2 ^ width) = Int.bmod n (2 ^ width) := by
    rw [← BitVec.toInt_ofInt, ← BitVec.toInt_ofInt, h]
  calc m % Nat.pow 2 width
      = Int.bmod m (2 ^ width) % Nat.pow 2 width := Int.bmod_emod.symm
    _ = Int.bmod n (2 ^ width) % Nat.pow 2 width := by rw [hbmod]
    _ = n % Nat.pow 2 width := Int.bmod_emod

theorem ofInt_congr {m n : Int} {width : Nat}
    (h : m % Nat.pow 2 width = n % Nat.pow 2 width) :
    BitVec.ofInt width m = BitVec.ofInt width n := by
  refine BitVec.eq_of_toNat_eq ?_
  rw [BitVec.toNat_ofInt, BitVec.toNat_ofInt]
  exact congrArg Int.toNat h

/-- Bits that are combined place by place are those of the exact result. -/
theorem ofInt_land (width : Nat) (m n : Int) :
    BitVec.ofInt width (m.land n) = BitVec.ofInt width m &&& BitVec.ofInt width n := by
  refine BitVec.eq_of_getLsbD_eq fun i hi => ?_
  rw [BitVec.getLsbD_and, getLsbD_ofInt, getLsbD_ofInt, getLsbD_ofInt, Int.testBit_land]
  simp [hi]

theorem ofInt_lor (width : Nat) (m n : Int) :
    BitVec.ofInt width (m.lor n) = BitVec.ofInt width m ||| BitVec.ofInt width n := by
  refine BitVec.eq_of_getLsbD_eq fun i hi => ?_
  rw [BitVec.getLsbD_or, getLsbD_ofInt, getLsbD_ofInt, getLsbD_ofInt, Int.testBit_lor]
  simp [hi]

theorem ofInt_xor (width : Nat) (m n : Int) :
    BitVec.ofInt width (m.xor n) = BitVec.ofInt width m ^^^ BitVec.ofInt width n := by
  refine BitVec.eq_of_getLsbD_eq fun i hi => ?_
  rw [BitVec.getLsbD_xor, getLsbD_ofInt, getLsbD_ofInt, getLsbD_ofInt, Int.testBit_lxor]
  simp [hi]

/-- Bits that are combined place by place depend on the residues of the operands only. -/
theorem combined_emod {f : {w : Nat} → BitVec w → BitVec w → BitVec w} {g : Int → Int → Int}
    (hg : ∀ width m n, BitVec.ofInt width (g m n) = f (BitVec.ofInt width m) (BitVec.ofInt width n))
    {x x' y y' : Int} {width : Nat} (hx : x % Nat.pow 2 width = x' % Nat.pow 2 width)
    (hy : y % Nat.pow 2 width = y' % Nat.pow 2 width) :
    g x y % Nat.pow 2 width = g x' y' % Nat.pow 2 width := by
  refine toInt_ofInt_congr ?_
  rw [hg, hg, ofInt_congr hx, ofInt_congr hy]

/-- An operator that neither shifts nor divides depends on the residues of the operands only. -/
theorem exact_emod {op : ArithOp} (hshift : ¬op.isShift) (hdivides : ¬op.divides)
    {x x' y y' : Int} {width : Nat} (hx : x % Nat.pow 2 width = x' % Nat.pow 2 width)
    (hy : y % Nat.pow 2 width = y' % Nat.pow 2 width) :
    op.exact x y % Nat.pow 2 width = op.exact x' y' % Nat.pow 2 width := by
  cases op with
  | add => exact Int.ModEq.add hx hy
  | sub => exact Int.ModEq.sub hx hy
  | mul => exact Int.ModEq.mul hx hy
  | bitAnd => exact combined_emod ofInt_land hx hy
  | bitXor => exact combined_emod ofInt_xor hx hy
  | bitOr => exact combined_emod ofInt_lor hx hy
  | div => exact absurd rfl hdivides
  | rem => exact absurd rfl hdivides
  | shiftLeft => exact absurd rfl hshift
  | shiftRight => exact absurd rfl hshift

/-! ## Operators against the rule -/

/-- Combined bits are those of the exact result. -/
theorem combineBits_eq {f : {w : Nat} → BitVec w → BitVec w → BitVec w} {g : Int → Int → Int}
    (hg : ∀ width m n, BitVec.ofInt width (g m n) = f (BitVec.ofInt width m) (BitVec.ofInt width n))
    (a b : MachineInt) : combineBits f a b = ofCommon a b (g a.value b.value) := by
  refine ofCommon_congr (toInt_ofInt_congr ?_)
  rw [BitVec.ofInt_toInt, hg]

/-- An operator that neither shifts nor divides yields the exact result, in the common type. -/
theorem arith_eq_exact {op : ArithOp} (hshift : ¬op.isShift) (hdivides : ¬op.divides)
    (a b : MachineInt) : arith op a b = .ok (ofCommon a b (op.exact a.value b.value)) := by
  cases op with
  | add => rfl
  | sub => rfl
  | mul => rfl
  | bitAnd => exact congrArg Except.ok (combineBits_eq ofInt_land a b)
  | bitXor => exact congrArg Except.ok (combineBits_eq ofInt_xor a b)
  | bitOr => exact congrArg Except.ok (combineBits_eq ofInt_lor a b)
  | div => exact absurd rfl hdivides
  | rem => exact absurd rfl hdivides
  | shiftLeft => exact absurd rfl hshift
  | shiftRight => exact absurd rfl hshift

/-- An operator that does not divide yields what the usual conversions ask for, since a conversion
keeps the residues that its result depends on. -/
theorem arith_eq_usual {op : ArithOp} (hshift : ¬op.isShift) (hdivides : ¬op.divides)
    {a b : MachineInt} (ha : a.InRange) (hb : b.InRange) : arith op a b = usualArith op a b := by
  rw [arith_eq_exact hshift hdivides, usualArith, if_neg fun h => hdivides h.1, toUsual_eq]
  exact congrArg Except.ok <| ofCommon_congr <|
    exact_emod hshift hdivides (toUsual_value_emod ha).symm (toUsual_value_emod hb).symm

/-- A division takes its operands as they are. -/
theorem arith_of_divides {op : ArithOp} (hdivides : op.divides) (a b : MachineInt) :
    arith op a b = if b.value = 0 then .error .divisionByZero
      else .ok (ofCommon a b (op.exact a.value b.value)) := by
  cases op with
  | div => by_cases hzero : b.value = 0 <;> simp [arith, divide, hzero, Except.map, ArithOp.exact]
  | rem => by_cases hzero : b.value = 0 <;> simp [arith, divide, hzero, Except.map, ArithOp.exact]
  | _ => cases hdivides

/-- A division yields what the usual conversions ask for if they leave the operands as they are. -/
theorem divide_eq_usual {op : ArithOp} (hdivides : op.divides) {a b : MachineInt} (ha : a.InRange)
    (hb : b.InRange) (hkept : Kept a b) : arith op a b = usualArith op a b := by
  rw [arith_of_divides hdivides, usualArith, usualLeft_eq_self ha hkept,
    usualRight_eq_self hb hkept, toUsual_eq]
  simp only [hdivides, true_and]

theorem arith_eq_divisionByZero_iff {op : ArithOp} (hdivides : op.divides) (a b : MachineInt) :
    arith op a b = .error .divisionByZero ↔ b.value = 0 := by
  rw [arith_of_divides hdivides]
  split <;> simp_all

theorem usualArith_eq_divisionByZero_iff {op : ArithOp} (hdivides : op.divides)
    {a b : MachineInt} (hb : b.InRange) :
    usualArith op a b = .error .divisionByZero ↔ b.value = 0 := by
  rw [usualArith, ← usualRight_eq_zero_iff hb (a := a)]
  split <;> simp_all

end MachineInt

/-! ## Relations against the rule -/

/-- What a relation says of two integers that compare as they do is whether they are in it. -/
theorem RelOp.holds_compare (op : RelOp) (x y : Int) :
    op.holds (some (Ord.compare x y)) = op.relates x y := by
  rcases lt_trichotomy x y with hlt | rfl | hgt
  · rw [show Ord.compare x y = .lt from compare_lt_iff_lt.mpr hlt]
    cases op <;> simp [holds, relates] <;> omega
  · rw [show Ord.compare x x = .eq from compare_eq_iff_eq.mpr rfl]
    cases op <;> simp [holds, relates]
  · rw [show Ord.compare x y = .gt from compare_gt_iff_gt.mpr hgt]
    cases op <;> simp [holds, relates] <;> omega

theorem Value.compare_ints (op : RelOp) (a b : MachineInt) :
    Value.compare op (.int a) (.int b) = .ok (op.relates a.value b.value) :=
  congrArg Except.ok (op.holds_compare a.value b.value)

theorem Value.arith_ints (op : ArithOp) (a b : MachineInt) :
    Value.arith op (.int a) (.int b) = (MachineInt.arith op a b).map .int := by
  cases op <;> rfl

/-! ## The conversions kept -/

/-- On integers in range, the operators that do not divide yield what the usual arithmetic
conversions ask for; a division fails exactly if it is by zero, on the converted operands as on the
given ones, and says so; and quotients, remainders and relations are those of the converted operands
if the conversions leave the operands as they are. -/
theorem Value.usual_conversions {a b : MachineInt} (ha : a.InRange) (hb : b.InRange) :
    (∀ op : ArithOp, ¬op.isShift → (op.divides → MachineInt.Kept a b) →
      Value.arith op (.int a) (.int b) = (MachineInt.usualArith op a b).map .int) ∧
    (∀ op : ArithOp, op.divides →
      (Value.arith op (.int a) (.int b) = .error .divisionByZero ↔ b.value = 0) ∧
      (MachineInt.usualArith op a b = .error .divisionByZero ↔ b.value = 0)) ∧
    (∀ op : RelOp, MachineInt.Kept a b →
      Value.compare op (.int a) (.int b) = .ok (MachineInt.usualCompare op a b)) ∧
    ∀ records, Fault.message records .divisionByZero = "Division by zero." := by
  refine ⟨fun op hshift hkept => ?_, fun op hdivides => ⟨?_, ?_⟩, fun op hkept => ?_,
    fun _ => rfl⟩
  · rw [Value.arith_ints]
    by_cases hdivides : op.divides
    · rw [MachineInt.divide_eq_usual hdivides ha hb (hkept hdivides)]
    · rw [MachineInt.arith_eq_usual hshift hdivides ha hb]
  · rw [Value.arith_ints, ← MachineInt.arith_eq_divisionByZero_iff hdivides a b]
    cases MachineInt.arith op a b <;> simp [Except.map]
  · exact MachineInt.usualArith_eq_divisionByZero_iff hdivides hb
  · rw [Value.compare_ints, MachineInt.usualCompare, MachineInt.usualLeft_eq_self ha hkept,
      MachineInt.usualRight_eq_self hb hkept]

/-- The least plain integer divided by minus one of twice the width, and compared with it. -/
theorem Value.usual_conversions_least :
    Value.arith .div (.int ⟨-2147483648, 32, true⟩) (.int ⟨-1, 64, true⟩) =
      (MachineInt.usualArith .div ⟨-2147483648, 32, true⟩ ⟨-1, 64, true⟩).map .int ∧
    (Value.arith .rem (.int ⟨-2147483648, 32, true⟩) (.int ⟨-1, 64, true⟩) =
      .error .divisionByZero ↔ (-1 : Int) = 0) ∧
    Value.compare .lt (.int ⟨-2147483648, 32, true⟩) (.int ⟨-1, 64, true⟩) =
      .ok (MachineInt.usualCompare .lt ⟨-2147483648, 32, true⟩ ⟨-1, 64, true⟩) := by
  obtain ⟨harith, hzero, hcompare, -⟩ :=
    Value.usual_conversions (a := ⟨-2147483648, 32, true⟩) (b := ⟨-1, 64, true⟩)
      (by decide) (by decide)
  exact ⟨harith .div (by decide) fun _ => by decide, (hzero .rem rfl).1,
    hcompare .lt (by decide)⟩

/-- Minus one is divided by an unsigned two, and compared with an unsigned one, as it is, where the
usual conversions make the greatest unsigned integer of it. -/
theorem Value.not_usual_conversions :
    ¬((∀ (op : ArithOp) (a b : MachineInt), ¬op.isShift → a.InRange → b.InRange →
        Value.arith op (.int a) (.int b) = (MachineInt.usualArith op a b).map .int) ∨
      ∀ (op : RelOp) (a b : MachineInt), a.InRange → b.InRange →
        Value.compare op (.int a) (.int b) = .ok (MachineInt.usualCompare op a b)) := by
  rintro (h | h)
  · have heq := h .div ⟨-1, 32, true⟩ ⟨2, 32, false⟩ (by decide) (by decide) (by decide)
    have hleft : Value.arith .div (.int ⟨-1, 32, true⟩) (.int ⟨2, 32, false⟩) =
        .ok (.int ⟨0, 32, false⟩) := rfl
    have hright : MachineInt.usualArith .div ⟨-1, 32, true⟩ ⟨2, 32, false⟩ =
        .ok ⟨2147483647, 32, false⟩ := rfl
    rw [hleft, hright] at heq
    cases heq
  · have heq := h .lt ⟨-1, 32, true⟩ ⟨1, 32, false⟩ (by decide) (by decide)
    have hleft : Value.compare .lt (.int ⟨-1, 32, true⟩) (.int ⟨1, 32, false⟩) = .ok true := rfl
    have hright : MachineInt.usualCompare .lt ⟨-1, 32, true⟩ ⟨1, 32, false⟩ = false := rfl
    rw [hleft, hright] at heq
    cases heq

end MiniC
