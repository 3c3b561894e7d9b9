import MiniC.Text.CodeRange

set_option autoImplicit false

/-! # Blank characters

The characters that count as blank when the end of a line is trimmed: those with the Unicode
property White_Space, and the four information separators U+001C to U+001F. -/

namespace MiniC.Text

/-- The inclusive ranges of code points of the blank characters, in ascending order. -/
def blankRanges : List (Nat × Nat) :=
  [(0x09, 0x0D), (0x1C, 0x20), (0x85, 0x85), (0xA0, 0xA0), (0x1680, 0x1680), (0x2000, 0x200A),
   (0x2028, 0x2029), (0x202F, 0x202F), (0x205F, 0x205F), (0x3000, 0x3000)]

theorem isAscending_blankRanges : isAscending blankRanges = true := by decide

/-- Whether a character is blank. -/
def isBlank (c : Char) : Bool :=
  inRanges blankRanges c

/-- A text without the blank characters at its end. -/
def trimEnd (cs : List Char) : List Char :=
  (cs.reverse.dropWhile isBlank).reverse

/-- Trimming takes away blank characters only, and only at the end. -/
theorem trimEnd_append_blanks (cs : List Char) :
    ∃ blanks, cs = trimEnd cs ++ blanks ∧ ∀ c ∈ blanks, isBlank c = true := by
  refine ⟨(cs.reverse.takeWhile isBlank).reverse, ?_, ?_⟩
  · rw [trimEnd, ← List.reverse_append, List.takeWhile_append_dropWhile, List.reverse_reverse]
  · intro c hc
    have hmem := List.mem_reverse.mp hc
    exact (List.all_eq_true.mp List.all_takeWhile) c hmem

end MiniC.Text
