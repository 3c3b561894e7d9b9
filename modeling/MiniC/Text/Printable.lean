import MiniC.Text.Blank
import MiniC.Text.Unassigned

set_option autoImplicit false

/-! # Printable characters

The characters that show as themselves when a text is written out. The others are those of the
general categories Control, Format, Private Use and Unassigned and the separators other than the
space, as Unicode 14.0 has them. A lone surrogate is no character, so it needs no range here. -/

namespace MiniC.Text

/-- The inclusive ranges of the control characters. -/
def controlRanges : List (Nat × Nat) :=
  [(0x0000, 0x001F), (0x007F, 0x009F)]

/-- The inclusive ranges of the format characters, which change how their neighbours look and are
not seen themselves. -/
def formatRanges : List (Nat × Nat) :=
  [(0x00AD, 0x00AD), (0x0600, 0x0605), (0x061C, 0x061C), (0x06DD, 0x06DD), (0x070F, 0x070F),
   (0x0890, 0x0891), (0x08E2, 0x08E2), (0x180E, 0x180E), (0x200B, 0x200F), (0x202A, 0x202E),
   (0x2060, 0x2064), (0x2066, 0x206F), (0xFEFF, 0xFEFF), (0xFFF9, 0xFFFB), (0x110BD, 0x110BD),
   (0x110CD, 0x110CD), (0x13430, 0x13438), (0x1BCA0, 0x1BCA3), (0x1D173, 0x1D17A),
   (0xE0001, 0xE0001), (0xE0020, 0xE007F)]

/-- The inclusive ranges of the separators of words, lines and paragraphs, without the space. -/
def separatorRanges : List (Nat × Nat) :=
  [(0x00A0, 0x00A0), (0x1680, 0x1680), (0x2000, 0x200A), (0x2028, 0x2029), (0x202F, 0x202F),
   (0x205F, 0x205F), (0x3000, 0x3000)]

/-- The inclusive ranges of the code points for private use. -/
def privateRanges : List (Nat × Nat) :=
  [(0xE000, 0xF8FF), (0xF0000, 0xFFFFD), (0x100000, 0x10FFFD)]

theorem isAscending_smallRanges :
    [controlRanges, formatRanges, separatorRanges, privateRanges].all isAscending = true := by
  decide

/-- Whether a character shows as itself. -/
def isPrintable (c : Char) : Bool :=
  !(inRanges controlRanges c || inRanges formatRanges c || inRanges separatorRanges c
    || inRanges privateRanges c || isUnassigned c)

/-- Neither a control character nor a separator shows as itself. -/
theorem isPrintable_eq_false {c : Char}
    (h : inRanges controlRanges c = true ∨ inRanges separatorRanges c = true) :
    isPrintable c = false := by
  rcases h with h | h <;> simp [isPrintable, h]

/-- The space is the only character that is blank and shows as itself. -/
theorem isBlank_and_isPrintable (c : Char) : (isBlank c && isPrintable c) = true ↔ c = ' ' := by
  constructor
  · intro h
    obtain ⟨blank, printable⟩ := Bool.and_eq_true_iff.mp h
    refine Decidable.byContradiction fun space => ?_
    have other : c.toNat ≠ 0x20 := fun eq => space (Char.toNat_inj.mp eq)
    suffices inRanges controlRanges c = true ∨ inRanges separatorRanges c = true by
      simp [isPrintable_eq_false this] at printable
    simp [isBlank, inRanges, blankRanges] at blank
    simp [inRanges, controlRanges, separatorRanges]
    omega
  · rintro rfl
    decide

end MiniC.Text
