set_option autoImplicit false

/-! # Ranges of code points

A class of characters as an ascending list of inclusive ranges of code points. Two ranges that
follow each other do not touch, so each class has one such list, and a search ends at the first
range that begins above what is looked for. -/

namespace MiniC.Text

/-- Whether no range is empty and each begins above the code point that follows the range before. -/
def isAscending : List (Nat × Nat) → Bool
  | [] => true
  | [range] => range.1 ≤ range.2
  | range :: next :: rest =>
    range.1 ≤ range.2 && range.2 + 1 < next.1 && isAscending (next :: rest)

/-- Whether the code point of a character is in one of the ranges of an ascending list. -/
def inRanges : List (Nat × Nat) → Char → Bool
  | [], _ => false
  | range :: rest, c => range.1 ≤ c.toNat && (c.toNat ≤ range.2 || inRanges rest c)

theorem isAscending_of_cons {range : Nat × Nat} {rest : List (Nat × Nat)}
    (h : isAscending (range :: rest) = true) : isAscending rest = true := by
  cases rest with
  | nil => rfl
  | cons next rest => grind [isAscending]

/-- The first range of an ascending list begins below all others. -/
theorem isAscending_cons_lt {range : Nat × Nat} {rest : List (Nat × Nat)}
    (h : isAscending (range :: rest) = true) : ∀ other ∈ rest, range.1 < other.1 := by
  induction rest generalizing range with
  | nil => simp
  | cons next rest ih =>
    have hnext : range.1 < next.1 := by grind [isAscending]
    intro other hmem
    rcases List.mem_cons.mp hmem with rfl | hmem
    · exact hnext
    · exact Nat.lt_trans hnext (ih (isAscending_of_cons h) other hmem)

/-- In an ascending list the search finds a code point exactly if some range holds it. -/
theorem inRanges_iff {ranges : List (Nat × Nat)} (h : isAscending ranges = true) (c : Char) :
    inRanges ranges c = true ↔ ∃ range ∈ ranges, range.1 ≤ c.toNat ∧ c.toNat ≤ range.2 := by
  induction ranges with
  | nil => simp [inRanges]
  | cons range rest ih =>
    have above := isAscending_cons_lt h
    have found := ih (isAscending_of_cons h)
    simp only [inRanges, Bool.and_eq_true, Bool.or_eq_true, decide_eq_true_eq, found,
      List.mem_cons, or_and_right, exists_or, exists_eq_left]
    constructor
    · rintro ⟨hlo, hhi | hrest⟩
      · exact Or.inl ⟨hlo, hhi⟩
      · exact Or.inr hrest
    · rintro (⟨hlo, hhi⟩ | ⟨other, hmem, hlo, hhi⟩)
      · exact ⟨hlo, Or.inl hhi⟩
      · exact ⟨Nat.le_trans (Nat.le_of_lt (above other hmem)) hlo, Or.inr ⟨other, hmem, hlo, hhi⟩⟩

end MiniC.Text
