import MiniC.Text.Printable

set_option autoImplicit false

/-! # Quoted text

A text between quotes on one line, in printable characters only. A backslash stands before the
quote, before another backslash and before the letter or the code point of a character that does
not show as itself. -/

namespace MiniC.Text

/-- The last `width` hexadecimal digits of a number, the most significant first. -/
def hexDigits : Nat → Nat → List Char
  | 0, _ => []
  | width + 1, n => hexDigits width (n / 16) ++ [Nat.digitChar (n % 16)]

/-- A character written by its code point, with as many digits as its size needs: two, four or
eight. -/
def codeEscape (c : Char) : List Char :=
  if c.toNat < 0x100 then '\\' :: 'x' :: hexDigits 2 c.toNat
  else if c.toNat < 0x10000 then '\\' :: 'u' :: hexDigits 4 c.toNat
  else '\\' :: 'U' :: hexDigits 8 c.toNat

/-- A character as it stands between the given quotes. -/
def quoteChar (quote c : Char) : List Char :=
  if c = quote || c = '\\' then ['\\', c]
  else if c = '\n' then ['\\', 'n']
  else if c = '\r' then ['\\', 'r']
  else if c = '\t' then ['\\', 't']
  else if isPrintable c then [c]
  else codeEscape c

/-- The quotes for a text: single ones, or double ones if there are single quotes but no double
quotes in it. -/
def quoteFor (cs : List Char) : Char :=
  if cs.contains '\'' && !cs.contains '"' then '"' else '\''

/-- A text between quotes. -/
def quoted (text : String) : String :=
  let cs := text.toList
  let quote := quoteFor cs
  String.ofList ([quote] ++ cs.flatMap (quoteChar quote) ++ [quote])

/-! ## What is written is printable -/

theorem isPrintable_digitChar : ∀ d < 16, isPrintable (Nat.digitChar d) = true := by
  decide

theorem isPrintable_of_mem_hexDigits {width n : Nat} {x : Char} (h : x ∈ hexDigits width n) :
    isPrintable x = true := by
  induction width generalizing n with
  | zero => simp [hexDigits] at h
  | succ width ih =>
    rw [hexDigits, List.mem_append, List.mem_singleton] at h
    rcases h with h | rfl
    · exact ih h
    · exact isPrintable_digitChar _ (Nat.mod_lt _ (by decide))

theorem isPrintable_of_mem_codeEscape {c x : Char} (h : x ∈ codeEscape c) :
    isPrintable x = true := by
  have written (m : Char) (width : Nat) (hm : isPrintable m = true)
      (h : x ∈ '\\' :: m :: hexDigits width c.toNat) : isPrintable x = true := by
    rcases List.mem_cons.mp h with rfl | h
    · decide
    rcases List.mem_cons.mp h with rfl | h
    · exact hm
    · exact isPrintable_of_mem_hexDigits h
  unfold codeEscape at h
  split at h
  · exact written 'x' 2 (by decide) h
  · split at h
    · exact written 'u' 4 (by decide) h
    · exact written 'U' 8 (by decide) h

/-- Between printable quotes every character is written in printable ones. -/
theorem isPrintable_of_mem_quoteChar {quote c x : Char} (hq : isPrintable quote = true)
    (h : x ∈ quoteChar quote c) : isPrintable x = true := by
  have letter := List.all_eq_true.mp (show ['\\', 'n', 'r', 't'].all isPrintable = true by decide)
  grind [quoteChar, isPrintable_of_mem_codeEscape]

/-- A quoted text holds printable characters only. -/
theorem isPrintable_of_mem_quoted {text : String} {x : Char} (h : x ∈ (quoted text).toList) :
    isPrintable x = true := by
  have hq : isPrintable (quoteFor text.toList) = true := by
    unfold quoteFor
    split <;> decide
  simp only [quoted, String.toList_ofList, List.mem_append, List.mem_singleton,
    List.mem_flatMap] at h
  rcases h with (rfl | ⟨c, _, h⟩) | rfl
  · exact hq
  · exact isPrintable_of_mem_quoteChar hq h
  · exact hq

end MiniC.Text
