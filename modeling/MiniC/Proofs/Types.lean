import MiniC.CType.Cast
import MiniC.CType.Normalize
import Mathlib.Data.List.Basic

set_option autoImplicit false

/-! # What types have in common

The words of a type name stand for the same type everywhere, except that the declaration behind the
tag of a struct may be another one. Types that are written the same differ in nothing else. Such
types hold values of the same kind, and so do types of which one may be cast to the other. -/

namespace MiniC.CType

/-! ## Types from the same words -/

variable {find? : String → Option Nat} {words : List String} {s t : CType}

/-- The base that words without a struct name is no struct. -/
theorem struct?_of_baseOfWords {base : Base} (h : baseOfWords words = .ok base) (isConst : Bool)
    (levels : List Level) : struct? ⟨isConst, base, levels⟩ = none := by
  unfold baseOfWords at h
  grind [struct?]

/-- Words stand for the same everywhere, and not for a struct; or they stand for what a tag stands
for. -/
theorem ofWords_eq (words : List String) :
    ((∀ find? find?', ofWords find? words = ofWords find?' words) ∧
      ∀ find? t, ofWords find? words = .ok t → t.struct? = none) ∨
      ∃ isConst tag levels, ∀ find?, ofWords find? words =
        match find? tag with
        | none => .error (.unknownStruct tag)
        | some decl => .ok ⟨isConst, .struct tag decl, levels⟩ := by
  unfold ofWords
  cases sortFrom ⟨[], none, []⟩ words with
  | error e => exact .inl ⟨fun _ _ => rfl, nofun⟩
  | ok sorted =>
    dsimp only [bind, Except.bind]
    cases complaint? sorted.base with
    | some e => exact .inl ⟨fun _ _ => rfl, nofun⟩
    | none =>
      cases sorted.tag with
      | none =>
        refine .inl ⟨fun _ _ => rfl, fun _ t ht => ?_⟩
        dsimp only at ht
        split at ht
        · split at ht
          · cases ht
          · cases ht
            rfl
        · cases hbase : baseOfWords sorted.base with
          | error e =>
            rw [hbase] at ht
            cases ht
          | ok base =>
            rw [hbase] at ht
            cases ht
            exact struct?_of_baseOfWords hbase _ _
      | some tag =>
        dsimp only
        split
        · exact .inl ⟨fun _ _ => rfl, nofun⟩
        · refine .inr ⟨sorted.base.contains "const", tag, sorted.levels, fun find? => ?_⟩
          cases find? tag <;> rfl

/-- Words that stand for a type stand for it everywhere, or for a struct of the same tag wherever
they stand for a type. -/
theorem ofWords_cases (h : ofWords find? words = .ok t) :
    (∀ find?', ofWords find?' words = .ok t) ∨
      ∃ isConst tag levels, ∀ find?' t', ofWords find?' words = .ok t' →
        ∃ decl, t' = ⟨isConst, .struct tag decl, levels⟩ := by
  rcases ofWords_eq words with ⟨hsame, -⟩ | ⟨isConst, tag, levels, htype⟩
  · exact .inl fun find?' => (hsame find?' find?).trans h
  · refine .inr ⟨isConst, tag, levels, fun find?' t' h' => ?_⟩
    rw [htype] at h'
    split at h'
    · cases h'
    · cases h'
      exact ⟨_, rfl⟩

/-- The words of a struct type stand for what its tag stands for. -/
theorem find?_of_ofWords {tag : String} {decl : Nat} (h : ofWords find? words = .ok t)
    (ht : t.struct? = some (tag, decl)) : find? tag = some decl := by
  rcases ofWords_eq words with ⟨-, hnone⟩ | ⟨isConst, tag', levels, htype⟩
  · rw [hnone find? t h] at ht
    cases ht
  · rw [htype] at h
    split at h
    · cases h
    · rename_i hfind
      cases h
      cases ht
      exact hfind

/-- Words that stand for a type do so wherever all tags are known. -/
theorem exists_ofWords {find?' : String → Option Nat} (h : ofWords find? words = .ok t)
    (hfind : ∀ tag, (find?' tag).isSome) : ∃ t', ofWords find?' words = .ok t' := by
  rcases ofWords_eq words with ⟨hsame, -⟩ | ⟨isConst, tag, levels, htype⟩
  · exact ⟨t, (hsame find?' find?).trans h⟩
  · obtain ⟨decl, hdecl⟩ := Option.isSome_iff_exists.mp (hfind tag)
    exact ⟨_, by rw [htype, hdecl]⟩

/-- A type that is not that of a struct does not depend on the declarations of structs. -/
theorem ofWords_of_struct?_eq_none (h : ofWords find? words = .ok t) (ht : t.struct? = none)
    (find?' : String → Option Nat) : ofWords find?' words = .ok t := by
  rcases ofWords_cases h with hall | ⟨isConst, tag, levels, hall⟩
  · exact hall find?'
  · obtain ⟨decl, rfl⟩ := hall _ _ h
    cases ht

/-- The words of a struct stand for a struct of its tag. -/
theorem eq_of_ofWords_struct {tag : String} (h : ofWords find? ["struct", tag] = .ok t) :
    ∃ decl, t = ⟨false, .struct tag decl, []⟩ := by
  have hsorted : sortFrom ⟨[], none, []⟩ ["struct", tag] = .ok ⟨[], some tag, []⟩ := by
    simp [sortFrom]
  have hcomplaint : complaint? [] = none := rfl
  rw [ofWords, hsorted] at h
  simp only [bind, Except.bind, hcomplaint] at h
  cases hfind : find? tag with
  | none =>
    rw [hfind] at h
    cases h
  | some decl =>
    rw [hfind] at h
    cases h
    exact ⟨decl, rfl⟩

/-- A type in which a struct is named by its tag only, whichever declaration the tag stands for. -/
def undeclared (t : CType) : CType :=
  match t.base with
  | .struct tag _ => { t with base := .struct tag 0 }
  | _ => t

/-- The same words stand for the same type everywhere, up to the declarations of structs. -/
theorem undeclared_eq_of_ofWords {find?' : String → Option Nat} (hs : ofWords find? words = .ok s)
    (ht : ofWords find?' words = .ok t) : s.undeclared = t.undeclared := by
  rcases ofWords_cases hs with hall | ⟨isConst, tag, levels, hall⟩
  · rw [Except.ok.inj (ht.symm.trans (hall find?'))]
  · obtain ⟨decl, rfl⟩ := hall _ _ hs
    obtain ⟨decl', rfl⟩ := hall _ _ ht
    rfl

section

variable (t : CType)

theorem isPointer_undeclared : t.undeclared.isPointer = t.isPointer := by
  unfold undeclared
  split <;> rfl

theorem isAuto_undeclared : t.undeclared.isAuto = t.isAuto := by
  unfold undeclared
  split
  · rename_i tag decl hbase
    simp [isAuto, hbase]
  · rfl

theorem isVoid_undeclared : t.undeclared.isVoid = t.isVoid := by
  unfold undeclared
  split
  · rename_i tag decl hbase
    simp [isVoid, hbase]
  · rfl

theorem tag?_undeclared : t.undeclared.tag? = t.tag? := by
  unfold undeclared
  split
  · rename_i tag decl hbase
    simp [tag?, struct?, hbase]
  · rfl

theorem isStruct_undeclared : t.undeclared.isStruct = t.isStruct := by
  unfold undeclared
  split
  · rename_i tag decl hbase
    simp [isStruct, struct?, hbase]
  · rfl

end

/-- Types that are the same but for the declarations of structs. -/
theorem cases_of_undeclared_eq (h : s.undeclared = t.undeclared) :
    s = t ∨ ∃ isConst tag decl decl' levels,
      s = ⟨isConst, .struct tag decl, levels⟩ ∧ t = ⟨isConst, .struct tag decl', levels⟩ := by
  obtain ⟨isConst, base, levels⟩ := s
  obtain ⟨isConst', base', levels'⟩ := t
  cases base with
  | struct tag decl =>
    cases base' with
    | struct tag' decl' =>
      cases h
      exact .inr ⟨_, _, _, _, _, rfl, rfl⟩
    | _ => cases h
  | _ =>
    cases base' with
    | struct tag' decl' => cases h
    | _ => exact .inl h

/-- Whether a type may be cast to another does not depend on the declarations of structs. -/
theorem castError?_congr (src : CType) (h : s.undeclared = t.undeclared) :
    src.castError? s = src.castError? t := by
  rcases cases_of_undeclared_eq h with rfl | ⟨isConst, tag, decl, decl', levels, rfl, rfl⟩
  · rfl
  · simp only [castError?, isVoid, tag?, struct?, Option.isSome_some, Bool.or_true, if_true,
      Option.map_some, reduceCtorEq, decide_false, Bool.and_false, Bool.or_false]
    congr

theorem undeclared_pointers (t : CType) (n : Nat) :
    (t.pointers n).undeclared = t.undeclared.pointers n := by
  induction n with
  | zero => rfl
  | succ n ih =>
    rw [pointers, pointers, ← ih]
    unfold undeclared pointer pointerTo
    dsimp only
    split <;> rfl

/-! ## Types that are written the same -/

/-- Whether a word stands in front of the pointer levels of a type. -/
def isBaseWord (word : String) : Bool :=
  word ≠ "*" && word ≠ "*const"

theorem takeWhile_marks (t : CType) : t.marks.takeWhile isBaseWord = [] := by
  cases hmarks : t.marks with
  | nil => rfl
  | cons word rest =>
    have hword : word ∈ t.marks := by
      rw [hmarks]
      exact List.mem_cons_self
    obtain ⟨level, -, rfl⟩ := List.mem_map.mp (List.mem_reverse.mp hword)
    cases level <;> rfl

/-- The words of a base other than a struct are neither those of pointer levels nor `const`. -/
theorem forall_mem_words {b : Base} (hb : ∀ tag decl, b ≠ .struct tag decl) :
    ∀ word ∈ b.words, isBaseWord word ∧ word ≠ "const" := by
  cases b with
  | integer kind unsigned => cases kind <;> cases unsigned <;> decide
  | struct tag decl => exact absurd rfl (hb tag decl)
  | _ => decide

theorem base_eq_of_words {b b' : Base} (hb : ∀ tag decl, b ≠ .struct tag decl)
    (hb' : ∀ tag decl, b' ≠ .struct tag decl) (h : b.words = b'.words) : b = b' := by
  have hdistinct : ∀ kind kind' : IntKind, ∀ u u' : Bool,
      (Base.integer kind u).words = (Base.integer kind' u').words →
        Base.integer kind u = .integer kind' u' := by
    rintro (_ | _ | _ | _) (_ | _ | _ | _) <;> decide
  cases b with
  | struct tag decl => exact absurd rfl (hb tag decl)
  | integer kind u =>
    cases b' with
    | struct tag decl => exact absurd rfl (hb' tag decl)
    | integer kind' u' => exact hdistinct _ _ _ _ h
    | _ => revert h; cases kind <;> cases u <;> decide
  | _ =>
    cases b' with
    | struct tag decl => exact absurd rfl (hb' tag decl)
    | integer kind' u' => revert h; cases kind' <;> cases u' <;> decide
    | _ => revert h; decide

theorem base_of_struct? {tag : String} {decl : Nat} (ht : t.struct? = some (tag, decl)) :
    t.base = .struct tag decl := by
  unfold struct? at ht
  split at ht
  · rename_i hbase
    cases ht
    exact hbase
  · cases ht

theorem ne_struct_of_struct?_eq_none (ht : t.struct? = none) (tag : String) (decl : Nat) :
    t.base ≠ .struct tag decl := by
  intro h
  rw [struct?, h] at ht
  cases ht

/-- The words of a type without a struct are those of its base and then its pointer levels. -/
theorem takeWhile_words (ht : t.struct? = none) : t.words.takeWhile isBaseWord = t.baseWords := by
  have hbase : ∀ word ∈ t.baseWords, isBaseWord word := by
    intro word hword
    rcases List.mem_append.mp hword with hword | hword
    · split at hword
      · rw [List.mem_singleton.mp hword]
        rfl
      · cases hword
    · exact (forall_mem_words (ne_struct_of_struct?_eq_none ht) word hword).1
  rw [words, List.takeWhile_append_of_pos hbase, takeWhile_marks, List.append_nil]

theorem levels_eq_of_marks (h : s.marks = t.marks) : s.levels = t.levels := by
  have hinjective : Function.Injective Level.word := by
    rintro (_ | _) (_ | _) <;> decide
  exact hinjective.list_map (List.reverse_injective h)

theorem eq_of_baseWords (hs : s.struct? = none) (ht : t.struct? = none)
    (h : s.baseWords = t.baseWords) : s.isConst = t.isConst ∧ s.base = t.base := by
  have hs' := ne_struct_of_struct?_eq_none hs
  have ht' := ne_struct_of_struct?_eq_none ht
  -- whether the first word is `const` tells whether the base is read-only
  have hconst : ∀ {u : CType}, (∀ tag decl, u.base ≠ .struct tag decl) →
      (u.isConst = true ↔ "const" ∈ u.baseWords) := by
    intro u hu
    have hnone : "const" ∉ u.base.words := fun hmem => (forall_mem_words hu _ hmem).2 rfl
    cases hc : u.isConst <;> simp [baseWords, hc, hnone]
  have hsame : s.isConst = t.isConst := by
    rw [Bool.eq_iff_iff, hconst hs', hconst ht', h]
  refine ⟨hsame, base_eq_of_words hs' ht' ?_⟩
  rw [baseWords, baseWords, hsame] at h
  exact List.append_cancel_left h

/-- Types that are written the same differ in the declarations of structs at most. -/
theorem undeclared_eq_of_sameAs (h : s.sameAs t) : s.undeclared = t.undeclared := by
  simp only [sameAs, Bool.and_eq_true, decide_eq_true_eq] at h
  obtain ⟨hwords, htag⟩ := h
  obtain ⟨isConst, base, levels⟩ := s
  obtain ⟨isConst', base', levels'⟩ := t
  cases hs : struct? ⟨isConst, base, levels⟩ with
  | none =>
    have ht : struct? ⟨isConst', base', levels'⟩ = none := by
      simpa [tag?, hs] using htag.symm
    have hbase := takeWhile_words hs
    rw [hwords, takeWhile_words ht] at hbase
    obtain ⟨hconst, hsame⟩ := eq_of_baseWords hs ht hbase.symm
    rw [words, words, hbase] at hwords
    have hlevels := levels_eq_of_marks (List.append_cancel_left hwords)
    dsimp only at hconst hsame hlevels
    rw [hconst, hsame, hlevels]
  | some struct =>
    -- the tags are the same, and so are the words in front of them
    obtain ⟨tag, decl⟩ := struct
    have ht : (struct? ⟨isConst', base', levels'⟩).map (·.1) = some tag := by
      simpa [tag?, hs] using htag.symm
    obtain ⟨⟨tag', decl'⟩, hstruct, htags⟩ := Option.map_eq_some_iff.mp ht
    obtain rfl : tag' = tag := htags
    obtain rfl : base = _ := base_of_struct? hs
    obtain rfl : base' = _ := base_of_struct? hstruct
    have hlevels : isConst = isConst' ∧ marks ⟨isConst, .struct tag' decl, levels⟩ =
        marks ⟨isConst', .struct tag' decl', levels'⟩ := by
      revert hwords
      cases isConst <;> cases isConst' <;> simp [words, baseWords, Base.words]
    obtain ⟨rfl, hmarks⟩ := hlevels
    obtain rfl := levels_eq_of_marks hmarks
    rfl

/-! ## Pointers -/

theorem isStruct_of_isPointer (h : t.isPointer) : t.isStruct = false := by
  unfold isPointer at h
  unfold isStruct
  rw [(Bool.not_eq_true' _).mp h]
  rfl

theorem isAuto_of_isPointer (h : t.isPointer) : t.isAuto = false := by
  unfold isPointer at h
  unfold isAuto
  rw [(Bool.not_eq_true' _).mp h]
  rfl

theorem isPointer_of_pointee? (h : t.pointee? = some s) : t.isPointer := by
  unfold pointee? at h
  unfold isPointer
  split at h
  · cases h
  · rename_i hlevels
    rw [hlevels]
    rfl

theorem isPointer_pointers (t : CType) {n : Nat} (hn : n ≠ 0) : (t.pointers n).isPointer := by
  obtain ⟨n, rfl⟩ := Nat.exists_eq_succ_of_ne_zero hn
  rfl

/-! ## Casts -/

/-- Types that may be cast to one another are both pointers, or both structs with the same tag, or
neither. -/
theorem alike_of_castError? {src dst : CType} (h : src.castError? dst = none) :
    src.isPointer = dst.isPointer ∧ src.isStruct = dst.isStruct ∧
      (src.isStruct → src.tag? = dst.tag?) := by
  unfold castError? at h
  split at h
  · cases h
  rename_i hlength
  have hempty : src.levels.isEmpty = dst.levels.isEmpty := by
    rw [Bool.eq_iff_iff, List.isEmpty_iff_length_eq_zero, List.isEmpty_iff_length_eq_zero,
      Decidable.not_not.mp hlength]
  have hpointer : src.isPointer = dst.isPointer := congrArg (!·) hempty
  refine ⟨hpointer, ?_⟩
  split at h
  · rename_i hsrc
    have hstruct := isStruct_of_isPointer hsrc
    rw [hpointer] at hsrc
    rw [hstruct, isStruct_of_isPointer hsrc]
    exact ⟨rfl, fun h => absurd h Bool.false_ne_true⟩
  split at h
  · cases h
  unfold isStruct
  rw [hempty]
  split at h
  · rename_i hstruct
    split at h
    · rename_i htag
      have hsame : src.struct?.isSome = dst.struct?.isSome := by
        simpa only [tag?, Option.isSome_map] using congrArg Option.isSome htag
      exact ⟨by rw [hsame], fun _ => htag⟩
    · cases h
  · rename_i hstruct
    simp only [Bool.or_eq_true, not_or, Bool.not_eq_true] at hstruct
    rw [hstruct.1, hstruct.2, Bool.and_false]
    exact ⟨rfl, fun h => absurd h Bool.false_ne_true⟩

end MiniC.CType
