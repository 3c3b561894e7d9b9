import MiniC.Proofs.Arithmetic
import MiniC.Proofs.Casts
import MiniC.Proofs.Copies
import MiniC.Proofs.Inference.Tags

set_option autoImplicit false

/-! # Implicit conversions between integer types

An implicit cast between integer types goes by rank, and whether an integer keeps its value by
width. An unsigned type weighs double and a type of double width does as well, so that a signed type
may be cast to the unsigned one of half its width: no other implicit cast is to a narrower type.
Converted to a type that is at least as wide, and back, an integer is the same again, even if it
has another value in between; converted to the unsigned type of half the width, and back, it is the
same if that type has its value. -/

namespace MiniC

namespace CType

variable {s t : CType}

/-- Whether a number is the value of an integer of the type. -/
def HasInt (t : CType) (n : Int) : Prop :=
  MachineInt.InRange ⟨n, t.width, !t.isUnsigned⟩

/-- Between integer types, implicit casts go by rank. -/
theorem rank_le_of_castError? (hs : s.isInteger) (ht : t.isInteger)
    (h : s.castError? t = none) : s.rank ≤ t.rank := by
  obtain ⟨c, kind, unsigned, rfl⟩ := eq_of_isInteger hs
  obtain ⟨c', kind', unsigned', rfl⟩ := eq_of_isInteger ht
  by_contra hlt
  simp [castError?, isPointer, isVoid, struct?, hlt] at h

/-- An integer type is cast implicitly to a narrower one only if it is signed and the other is the
unsigned type of half its width. -/
theorem width_of_castError? (hs : s.isInteger) (ht : t.isInteger) (h : s.castError? t = none)
    (hlt : t.width < s.width) :
    s.isUnsigned = false ∧ t.isUnsigned ∧ s.width = 2 * t.width := by
  have hrank := rank_le_of_castError? hs ht h
  obtain ⟨c, kind, unsigned, rfl⟩ := eq_of_isInteger hs
  obtain ⟨c', kind', unsigned', rfl⟩ := eq_of_isInteger ht
  cases kind <;> cases kind' <;> cases unsigned <;> cases unsigned' <;>
    simp [width, rank, baseRank, isUnsigned] at hlt hrank ⊢

theorem width_pos (h : t.isInteger) : 0 < t.width := by
  obtain ⟨c, kind, unsigned, rfl⟩ := eq_of_isInteger h
  cases kind <;> decide +revert

end CType

namespace MachineInt

variable {n : Int} {width width' : Nat} {signed signed' : Bool}

/-- Wrapping to a type and then to one that is not wider is wrapping to that one. -/
theorem wrap_wrap_of_le (h : width ≤ width') :
    wrap (wrap n width' signed') width signed = wrap n width signed :=
  wrap_congr (wrap_emod_of_le h n signed') signed

/-- An integer that was wrapped to an unsigned type has its place in every wider type. -/
theorem wrap_wrap_of_lt (h : width' < width) :
    wrap (wrap n width' false) width signed = wrap n width' false := by
  have hwrapped := inRange_ofInt width' false n
  have hrange : InRange ⟨wrap n width' false, width, signed⟩ :=
    hwrapped.widen (Nat.le_of_lt h) (fun _ => .inr h) (.inr hwrapped.1)
  exact wrap_eq_self (Nat.zero_lt_of_lt h) hrange

example : wrap (wrap (-1) 16 false) 32 true = 65535 := by decide +kernel

end MachineInt

/-- A value of an integer type is an integer of the width and the sign that the type says. -/
theorem Machine.HasType.exists_hasInt {m : Machine} {t : CType} {v : Value} (h : m.HasType t v)
    (ht : t.isInteger) : ∃ n, v = .int ⟨n, t.width, !t.isUnsigned⟩ ∧ t.HasInt n := by
  obtain ⟨c, kind, unsigned, rfl⟩ := CType.eq_of_isInteger ht
  cases h with
  | @int n _ hwidth hsigned hrange =>
    obtain ⟨n, width, signed⟩ := n
    cases hwidth
    cases hsigned
    exact ⟨n, rfl, hrange⟩
  | float hfloating _ | double hfloating _ => cases hfloating
  | pointer ht => cases ht
  | record ht _ _ => cases ht

namespace Run

variable {m : Machine} {s t : CType} {v : Value}

/-- An integer in a location of an integer type is wrapped. -/
theorem exec_convert_int (ht : t.isInteger) (n : MachineInt) (pos : Option Position) :
    (convert t (.int n) pos).exec m = .ok (.int (.ofInt t.width (!t.isUnsigned) n.value)) m := by
  obtain ⟨c, kind, unsigned, rfl⟩ := CType.eq_of_isInteger ht
  rfl

/-- A value of an integer type that is cast implicitly to another one can be converted to that type,
and the result back. The value is the same again if and only if the other type is at least as wide
or has the number too. -/
theorem convert_back_iff (hs : s.isInteger) (ht : t.isInteger) (hcast : s.castError? t = none)
    (hv : m.HasType s v) (pos pos' : Option Position) :
    ∃ n w n', v = .int n ∧ (convert t v pos).exec m = .ok w m ∧ m.HasType t w ∧
      (convert s w pos').exec m = .ok (.int n') m ∧
      (n' = n ↔ s.width ≤ t.width ∨ t.HasInt n.value) := by
  obtain ⟨n, rfl, hn⟩ := hv.exists_hasInt hs
  refine ⟨_, _, _, rfl, exec_convert_int ht _ pos, hasType_ofInt ht n, exec_convert_int hs _ pos',
    ?_⟩
  have hself : wrap n s.width (!s.isUnsigned) = n :=
    MachineInt.wrap_eq_self (CType.width_pos hs) hn
  simp only [MachineInt.ofInt, MachineInt.mk.injEq, and_true]
  rcases Nat.lt_or_ge t.width s.width with hlt | hle
  · -- the narrower type is unsigned, and what is wrapped to it is not changed by `s` any more
    obtain ⟨-, hunsigned, -⟩ := CType.width_of_castError? hs ht hcast hlt
    rw [CType.HasInt, hunsigned, Bool.not_true, MachineInt.wrap_wrap_of_lt hlt]
    refine ⟨fun h => .inr ?_, fun h => ?_⟩
    · have hrange := MachineInt.inRange_ofInt t.width false n
      rwa [MachineInt.ofInt, h] at hrange
    · exact MachineInt.wrap_eq_self (CType.width_pos ht) (h.resolve_left (Nat.not_le.mpr hlt))
  · rw [MachineInt.wrap_wrap_of_le hle]
    exact iff_of_true hself (.inl hle)

/-- The integer -1 comes back from `unsigned int`, where it is 4294967295 in between. -/
theorem convert_back_iff_unsigned :
    ∃ w n, (convert ⟨false, .integer .int true, []⟩ (.int (.plain (-1))) none).exec .start =
      .ok w .start ∧ (convert .int w none).exec .start = .ok (.int n) .start ∧
      n = .plain (-1) := by
  have hv : Machine.start.HasType .int (.int (.plain (-1))) := .int rfl rfl rfl (by decide)
  obtain ⟨n, w, n', hn, hw, -, hback, hiff⟩ := convert_back_iff
    (t := ⟨false, .integer .int true, []⟩) rfl rfl (by decide) hv none none
  cases hn
  exact ⟨w, n', hw, hback, hiff.mpr (.inl (by decide))⟩

end Run

namespace Program

/-- The program `int main(){int x = 70000; unsigned short y = x; int z = y; printf(z); return 0;}`,
where the second variable is narrower than what it is given. -/
def narrowing : Program where
  items := [
    .function (sampleInt 1 0) (sampleName "main" 2 5 1) [] [
      .line [.declare ⟨⟨sampleInt 12 2, sampleName "x" 6 16 3, [],
        some (sampleNumber "70000" 8 20 4)⟩, []⟩],
      sampleVariable (sampleToken .typeKeyword "unsigned" 10 27)
        (sampleToken .typeKeyword "short" 11 36) (sampleToken .identifier "y" 12 42) 5
        (some (.identifier (sampleName "x" 6 46 7))),
      .line [.declare ⟨⟨sampleInt 49 8, sampleName "z" 13 53 9, [],
        some (.identifier (sampleName "y" 12 57 10))⟩, []⟩],
      .line [.expr (.call (.identifier (sampleName "printf" 14 60 11))
        [.identifier (sampleName "z" 13 67 12)])],
      .line [.return (some (sampleNumber "0" 16 78 13))]]]

/-- Not every implicit conversion between integer types can be taken back: the accepted program
prints 4464, which is what `unsigned short` keeps of 70000. -/
theorem not_convert_back :
    narrowing.Accepted ∧ (narrowing.run (fun _ => none) 100).2.output = "4464\n" ∧
    ¬∀ (s t : CType) (m : Machine) (v : Value) (pos pos' : Option Position),
      s.isInteger → t.isInteger → s.castError? t = none → m.HasType s v →
      ∃ w, (Run.convert t v pos).exec m = .ok w m ∧ (Run.convert s w pos').exec m = .ok v m := by
  have haccepted : narrowing.Accepted := by
    unfold Accepted
    cbv
  refine ⟨haccepted, by decide +kernel, fun hall => ?_⟩
  have hv : Machine.start.HasType .int (.int (.plain 70000)) := .int rfl rfl rfl (by decide)
  obtain ⟨w, hw, hback⟩ := hall .int ⟨false, .integer .short true, []⟩ .start _ none none rfl rfl
    (by decide) hv
  cases hw
  cases hback

end Program

end MiniC
