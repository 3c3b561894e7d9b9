import Mathlib.Tactic.SplitIfs
import MiniC.Token.Intern

set_option autoImplicit false

/-! # The numbers of tokens

What the number of a token is: the place at which its text stands among the texts of all tokens, in
the order of their first appearance and counted from one. -/

namespace MiniC

/-- Lexemes with the places of their texts, in the order of first appearance and counted from
one. -/
def Lexeme.numbered (ls : List Lexeme) : List Token :=
  ls.map fun l => ⟨l, (ls.map Lexeme.text).eraseDups.idxOf l.text + 1⟩

@[simp]
theorem Lexeme.toLexeme_numbered (ls : List Lexeme) :
    (numbered ls).map Token.toLexeme = ls := by
  rw [numbered, List.map_map]
  exact List.map_id ls

/-! ## The first appearances in a list -/

section

variable {α : Type} [BEq α] [LawfulBEq α] {done : List α} {text : α}

theorem eraseDups_append_of_mem (h : text ∈ done) :
    (done ++ [text]).eraseDups = done.eraseDups := by
  simp [List.eraseDups_append, List.removeAll, h]

theorem eraseDups_append_of_not_mem (h : text ∉ done) :
    (done ++ [text]).eraseDups = done.eraseDups ++ [text] := by
  simp [List.eraseDups_append, List.removeAll, h, List.eraseDups_cons]

end

/-! ## The texts in order -/

namespace Numbering

/-- Whether exactly the texts in `done` have a number, and which. -/
structure Numbers (names : Numbering) (done : List String) : Prop where
  getElem?_eq (text : String) :
    names.numbers[text]? = if text ∈ done then some (done.eraseDups.idxOf text + 1) else none
  size_eq : names.numbers.size = done.eraseDups.length

theorem numbers_empty : Numbers .empty [] :=
  ⟨fun text => by simp [empty], by simp [empty]⟩

/-- The place of a text does not change when more texts follow. -/
theorem idxOf_eraseDups_append {done : List String} {text : String} (h : text ∈ done)
    (more : List String) :
    (done ++ more).eraseDups.idxOf text = done.eraseDups.idxOf text := by
  rw [List.eraseDups_append, List.idxOf_append, if_pos (List.mem_eraseDups.mpr h)]

theorem Numbers.intern {names : Numbering} {done : List String} (h : Numbers names done)
    (text : String) :
    (names.intern text).1 = (done ++ [text]).eraseDups.idxOf text + 1 ∧
      Numbers (names.intern text).2 (done ++ [text]) := by
  by_cases hmem : text ∈ done
  · have hnumber : names.numbers[text]? = some (done.eraseDups.idxOf text + 1) := by
      rw [h.getElem?_eq, if_pos hmem]
    simp only [Numbering.intern, hnumber, eraseDups_append_of_mem hmem, true_and]
    refine ⟨fun other => ?_, by rw [eraseDups_append_of_mem hmem, h.size_eq]⟩
    rw [h.getElem?_eq, eraseDups_append_of_mem hmem]
    have hiff : other ∈ done ++ [text] ↔ other ∈ done := by
      simp only [List.mem_append, List.mem_singleton, or_iff_left_iff_imp]
      rintro rfl
      exact hmem
    simp only [hiff]
  · have hnumber : names.numbers[text]? = none := by rw [h.getElem?_eq, if_neg hmem]
    have hnew : text ∉ done.eraseDups := fun hin => hmem (List.mem_eraseDups.mp hin)
    have hplace : (done ++ [text]).eraseDups.idxOf text = done.eraseDups.length := by
      rw [eraseDups_append_of_not_mem hmem, List.idxOf_append, if_neg hnew]
      simp
    simp only [Numbering.intern, hnumber, hplace, h.size_eq, true_and]
    refine ⟨fun other => ?_, ?_⟩
    · rw [Std.HashMap.getElem?_insert, h.getElem?_eq]
      by_cases heq : text = other
      · subst heq
        simp [hplace]
      · rw [if_neg (by simpa using heq)]
        by_cases hother : other ∈ done
        · rw [if_pos hother, if_pos (by simp [hother]), idxOf_eraseDups_append hother]
        · rw [if_neg hother, if_neg]
          simp [hother, Ne.symm heq]
    · rw [Std.HashMap.size_insert, if_neg, h.size_eq, eraseDups_append_of_not_mem hmem,
        List.length_append, List.length_singleton]
      rw [← Std.HashMap.isSome_getElem?_iff_mem, hnumber]
      exact Bool.false_ne_true

end Numbering

open MiniC.Numbering in
theorem internFrom_eq {names : Numbering} {done : List String} (h : names.Numbers done)
    (ls : List Lexeme) :
    internFrom names ls
      = ls.map fun l => ⟨l, (done ++ ls.map Lexeme.text).eraseDups.idxOf l.text + 1⟩ := by
  induction ls generalizing names done with
  | nil => rfl
  | cons l ls ih =>
    obtain ⟨hid, hnames⟩ := h.intern l.text
    have hall : done ++ [l.text] ++ ls.map Lexeme.text = done ++ (l :: ls).map Lexeme.text := by
      simp
    have hmem : l.text ∈ done ++ [l.text] := List.mem_append_right done List.mem_cons_self
    have hplace := idxOf_eraseDups_append hmem (ls.map Lexeme.text)
    show ⟨l, (names.intern l.text).1⟩ :: internFrom (names.intern l.text).2 ls = _
    rw [ih hnames, hid, ← hplace, hall]
    rfl

/-- The tokens of a source text are its lexemes, numbered by first appearance. -/
theorem tokenize_eq (source : String) : tokenize source = (scan source).map Lexeme.numbered := by
  have h : internFrom .empty = Lexeme.numbered := by
    funext ls
    rw [internFrom_eq Numbering.numbers_empty, List.nil_append]
    rfl
  rw [tokenize, h]

theorem tokenize_eq_ok_iff {source : String} {tokens : List Token} :
    tokenize source = .ok tokens ↔ ∃ ls, scan source = .ok ls ∧ tokens = Lexeme.numbered ls := by
  rw [tokenize_eq]
  cases scan source with
  | error e => simp [Except.map]
  | ok ls => simp [Except.map, eq_comm]

theorem tokenize_eq_error_iff {source : String} {e : LexicalError} :
    tokenize source = .error e ↔ scan source = .error e := by
  rw [tokenize_eq]
  cases scan source <;> simp [Except.map]

end MiniC
