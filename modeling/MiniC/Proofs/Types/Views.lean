import Mathlib.Data.List.DropRight
import MiniC.Proofs.Inference.Tags
import MiniC.Proofs.Types.Canonical

set_option autoImplicit false

/-! # Views of types

From a type other types are made: what it points to, pointers to it, and the same type with its
outermost level writable. All of them are canonical, too: their words are read back as they stand.
The words of a type made in this way come from those of the type by changes at one place, where
`const` is a word of the base and a part of the mark of a pointer level. -/

namespace MiniC.CType

/-- Whether a type is named by words, or made from such a type. -/
inductive View (find? : String → Option Nat) : CType → Prop
  | named {words : List String} {t : CType} (h : ofWords find? words = .ok t) : View find? t
  | pointee {s t : CType} (ht : View find? t) (hs : t.pointee? = some s) : View find? s
  | pointerTo {t : CType} (ht : View find? t) (level : Level) : View find? (t.pointerTo level)
  | writable {t : CType} (ht : View find? t) : View find? t.writable

variable {find? : String → Option Nat} {s t : CType}

/-! ## Views are read back -/

theorem eq_of_pointee? (h : t.pointee? = some s) : ∃ level, t = s.pointerTo level := by
  obtain ⟨isConst, base, levels⟩ := t
  cases levels with
  | nil => cases h
  | cons level levels =>
    cases h
    exact ⟨level, rfl⟩

theorem base_writable (t : CType) : t.writable.base = t.base := by
  rcases t with ⟨_, _, _ | _⟩ <;> rfl

theorem isConst_writable (h : t.isConst = false) : t.writable.isConst = false := by
  rcases t with ⟨_, _, _ | _⟩
  · rfl
  · exact h

/-- In a view, no type left to the initializer is read-only, and the struct is the one that its tag
stands for. -/
theorem View.sound (h : View find? t) : (t.base = .auto → t.isConst = false) ∧
    ∀ tag decl, t.struct? = some (tag, decl) → find? tag = some decl := by
  induction h with
  | named h =>
    obtain ⟨_, -, -, -, hauto⟩ := sorted_of_ofWords h
    exact ⟨hauto, fun _ _ ht => find?_of_ofWords h ht⟩
  | pointee _ hs ih =>
    obtain ⟨level, rfl⟩ := eq_of_pointee? hs
    exact ih
  | pointerTo _ level ih => exact ih
  | writable _ ih =>
    refine ⟨fun hauto => isConst_writable (ih.1 (base_writable _ ▸ hauto)), ?_⟩
    simpa only [struct?, base_writable] using ih.2

theorem View.ofWords_words (h : View find? t) : ofWords find? t.words = .ok t :=
  CType.ofWords_words h.sound.1 h.sound.2

/-! ## Changes of a level -/

theorem isReadOnly_writable (t : CType) : t.writable.isReadOnly = false := by
  rcases t with ⟨_, _, _ | _⟩ <;> rfl

theorem writable_writable (t : CType) : t.writable.writable = t.writable := by
  rcases t with ⟨_, _, _ | _⟩ <;> rfl

theorem writable_of_pointee?_eq_none (h : t.pointee? = none) :
    t.writable = { t with isConst := false } := by
  rcases t with ⟨_, _, _ | _⟩
  · rfl
  · cases h

/-! ## Changes of words -/

/-- Whether a word is the mark of a pointer level. -/
def isMark (word : String) : Bool :=
  !isBaseWord word

namespace Words

/-- The marks at the end of words. -/
def marks (words : List String) : List String :=
  words.rtakeWhile isMark

/-- The words in front of the marks. -/
def base (words : List String) : List String :=
  words.rdropWhile isMark

/-- The words without the last mark, if there is one. -/
def pointee? (words : List String) : Option (List String) :=
  if marks words = [] then none else some words.dropLast

/-- The words with another mark. -/
def pointerTo (words : List String) (level : Level) : List String :=
  words ++ [level.word]

/-- The words where the last mark is a plain one, or without `const` where there are no marks. -/
def writable (words : List String) : List String :=
  if marks words = [] then words.erase "const" else words.dropLast ++ ["*"]

/-- Whether the last mark is a read-only one, or there is `const` where there are no marks. -/
def isReadOnly (words : List String) : Bool :=
  if marks words = [] then words.contains "const" else words.getLast? = some "*const"

end Words

theorem isMark_word (level : Level) : isMark level.word := by
  cases level <;> decide

theorem words_pointerTo (t : CType) (level : Level) :
    (t.pointerTo level).words = Words.pointerTo t.words level := by
  have hmarks : (t.pointerTo level).marks = t.marks ++ [level.word] := by simp [marks, pointerTo]
  rw [words, hmarks, ← List.append_assoc]
  rfl

/-- A type without pointer levels, or the type of pointers to a type. -/
theorem levels_cases (t : CType) : t.levels = [] ∨ ∃ s level, t = pointerTo s level := by
  obtain ⟨isConst, base, levels⟩ := t
  cases levels with
  | nil => exact .inl rfl
  | cons level levels => exact .inr ⟨⟨isConst, base, levels⟩, level, rfl⟩

section

variable (htag : ∀ tag, t.tag? = some tag → tag ∉ ["const", "*", "*const"])

include htag

/-- The words of a base are neither marks nor `const`, unless the tag of a struct is. -/
theorem forall_mem_base_words : ∀ word ∈ t.base.words, isMark word = false ∧ word ≠ "const" := by
  intro word hword
  cases ht : t.struct? with
  | none =>
    have hbase := forall_mem_words (ne_struct_of_struct?_eq_none ht) word hword
    exact ⟨by simpa [isMark] using hbase.1, hbase.2⟩
  | some struct =>
    have hname := htag struct.1 (by rw [tag?, ht, Option.map_some])
    rw [base_of_struct? ht, Base.words] at hword
    simp only [List.mem_cons, List.not_mem_nil, or_false, not_or] at hword hname
    rcases hword with rfl | rfl
    · decide
    · exact ⟨by simp [isMark, isBaseWord, hname.2], hname.1⟩

theorem forall_mem_baseWords : ∀ word ∈ t.baseWords, isMark word = false := by
  intro word hword
  rcases List.mem_append.mp hword with hword | hword
  · split at hword
    · rw [List.mem_singleton.mp hword]
      decide
    · cases hword
  · exact (forall_mem_base_words htag word hword).1

/-- The words of a type are cut at its marks. -/
theorem marks_words : Words.marks t.words = t.marks ∧ Words.base t.words = t.baseWords := by
  have hmarks : ∀ word ∈ t.marks.reverse, isMark word := by
    intro word hword
    rw [marks, List.reverse_reverse] at hword
    obtain ⟨level, -, rfl⟩ := List.mem_map.mp hword
    exact isMark_word level
  have hbase : ∀ (h : 0 < t.baseWords.reverse.length), ¬isMark (t.baseWords.reverse.get ⟨0, h⟩) := by
    intro h
    have hmem := List.mem_reverse.mp (List.get_mem t.baseWords.reverse ⟨0, h⟩)
    simpa using forall_mem_baseWords htag _ hmem
  constructor
  · rw [Words.marks, List.rtakeWhile, words, List.reverse_append,
      List.takeWhile_append_of_pos hmarks, List.takeWhile_eq_nil_iff.mpr hbase, List.append_nil,
      List.reverse_reverse]
  · rw [Words.base, List.rdropWhile, words, List.reverse_append,
      List.dropWhile_append_of_pos hmarks, List.dropWhile_eq_self_iff.mpr hbase,
      List.reverse_reverse]

theorem contains_const (hlevels : t.levels = []) : t.words.contains "const" = t.isConst := by
  have hbase : "const" ∉ t.base.words := fun hmem => (forall_mem_base_words htag _ hmem).2 rfl
  obtain ⟨isConst, base, levels⟩ := t
  obtain rfl : levels = [] := hlevels
  cases isConst <;> simp_all [words, marks, baseWords]

theorem erase_const (hlevels : t.levels = []) : t.words.erase "const" = t.writable.words := by
  have hbase : "const" ∉ t.base.words := fun hmem => (forall_mem_base_words htag _ hmem).2 rfl
  obtain ⟨isConst, base, levels⟩ := t
  obtain rfl : levels = [] := hlevels
  cases isConst <;> simp_all [words, marks, baseWords, CType.writable, List.erase_of_not_mem]

end

/-- How the views of a type and what is read off it come from its words alone. -/
structure ByWords (t : CType) : Prop where
  marks : Words.marks t.words = t.marks
  base : Words.base t.words = t.baseWords
  pointee : Words.pointee? t.words = t.pointee?.map CType.words
  pointerTo (level : Level) : (t.pointerTo level).words = Words.pointerTo t.words level
  writable : t.writable.words = Words.writable t.words
  isReadOnly : t.isReadOnly = Words.isReadOnly t.words

theorem byWords (htag : ∀ tag, t.tag? = some tag → tag ∉ ["const", "*", "*const"]) :
    t.ByWords := by
  obtain ⟨hmarks, hbase⟩ := marks_words htag
  rcases levels_cases t with hlevels | ⟨s, level, rfl⟩
  · have hnil : Words.marks t.words = [] := by rw [hmarks, CType.marks, hlevels]; rfl
    constructor
    · exact hmarks
    · exact hbase
    · rw [Words.pointee?, if_pos hnil, CType.pointee?, hlevels, Option.map_none]
    · exact words_pointerTo t
    · rw [Words.writable, if_pos hnil, erase_const htag hlevels]
    · rw [Words.isReadOnly, if_pos hnil, contains_const htag hlevels, CType.isReadOnly, hlevels]
  · have hcons : Words.marks (s.pointerTo level).words ≠ [] := by
      rw [hmarks]
      simp [CType.marks, CType.pointerTo]
    have hwords : (s.pointerTo level).words = s.words ++ [level.word] := words_pointerTo s level
    constructor
    · exact hmarks
    · exact hbase
    · rw [Words.pointee?, if_neg hcons, hwords, List.dropLast_concat]
      rfl
    · exact words_pointerTo _
    · rw [Words.writable, if_neg hcons, hwords, List.dropLast_concat]
      exact words_pointerTo s .writable
    · rw [Words.isReadOnly, if_neg hcons, hwords, List.getLast?_concat]
      cases level <;> rfl

/-! ## Views -/

/-- Every type that is named by words, or is a view of such a type, is read back from its words. A
pointer to a type points to that type. With its outermost level writable, a type is not read-only
and stays the same if that is done once more; what it points to is the same, and without pointer
levels only `const` is gone. All of this can be done to the words themselves, unless the tag of a
struct is spelled like a mark or like `const`. -/
theorem views_canonical (find? : String → Option Nat) : ∀ t, View find? t →
    ofWords find? t.words = .ok t ∧
    (∀ level, (t.pointerTo level).pointee? = some t) ∧
    t.writable.isReadOnly = false ∧
    t.writable.writable = t.writable ∧
    t.writable.pointee? = t.pointee? ∧
    (t.pointee? = none → t.writable = { t with isConst := false }) ∧
    ((∀ tag, t.tag? = some tag → tag ∉ ["const", "*", "*const"]) → t.ByWords) :=
  fun t h => ⟨h.ofWords_words, fun _ => rfl, isReadOnly_writable t, writable_writable t,
    pointee?_writable t, writable_of_pointee?_eq_none, byWords⟩

/-- What `const struct P *const *` points to, made writable, is written `const struct P *`. -/
theorem views_canonical_struct :
    View (fun _ => some 3) ⟨true, .struct "P" 3, [.writable]⟩ ∧
      ofWords (fun _ => some 3) ["const", "struct", "P", "*"] =
        .ok ⟨true, .struct "P" 3, [.writable]⟩ ∧
      Words.writable ["const", "struct", "P", "*const"] = ["const", "struct", "P", "*"] := by
  have hnamed : ofWords (fun _ => some 3) ["const", "struct", "P", "*const", "*"] =
      .ok ⟨true, .struct "P" 3, [.writable, .readOnly]⟩ := by
    have hsorted : sortFrom ⟨[], none, []⟩ ["const", "struct", "P", "*const", "*"] =
        .ok ⟨["const"], some "P", [.writable, .readOnly]⟩ := by
      simp [sortFrom]
    rw [ofWords, hsorted]
    rfl
  have hpointee : View (fun _ => some 3) ⟨true, .struct "P" 3, [.readOnly]⟩ :=
    .pointee (.named hnamed) rfl
  have hedits := (views_canonical _ _ hpointee).2.2.2.2.2.2 (by
    rintro tag ⟨⟩
    decide)
  exact ⟨hpointee.writable, (views_canonical _ _ hpointee.writable).1, hedits.writable.symm⟩

end MiniC.CType
