import MiniC.Proofs.Types
import MiniC.Token.Scan
import Mathlib.Data.List.Perm.Basic

set_option autoImplicit false

/-! # Types as they are written

A type may be written in many ways: its keywords and the struct it names stand in any order in front
of its pointer levels. Its words are the one way to write it that is read back as it stands: `const`
comes first, then `unsigned`, the base and the pointer levels in the order of the declaration. -/

namespace MiniC.CType

/-! ## Pieces -/

/-- A piece of a type as it is written: a keyword, a pointer level, or a struct and its tag. -/
inductive Piece
  | keyword (word : String) (h : word ∈ baseKeywords ++ modifiers)
  | star
  | constStar
  | struct (tag : String) (h : tag ∉ typeKeywords)

namespace Piece

/-- The words of a piece. -/
def words : Piece → List String
  | .keyword word _ => [word]
  | .star => ["*"]
  | .constStar => ["*const"]
  | .struct tag _ => ["struct", tag]

/-- Whether a piece is a pointer level. -/
def isMark : Piece → Bool
  | .star => true
  | .constStar => true
  | _ => false

/-- Whether a piece is the keyword `const`. -/
def isConst : Piece → Bool
  | .keyword word _ => word = "const"
  | _ => false

/-- The word of a keyword. -/
def word? : Piece → Option String
  | .keyword word _ => some word
  | _ => none

/-- The tag of a struct. -/
def tag? : Piece → Option String
  | .struct tag _ => some tag
  | _ => none

end Piece

/-- The words of pieces. -/
def wordsOf (ps : List Piece) : List String :=
  ps.flatMap Piece.words

/-- The pointer levels among pieces, in the order of a declaration. A star with `const` behind it is
read-only. -/
def levelsOf : List Piece → List Level
  | [] => []
  | .star :: ps =>
    (if ps.head?.any Piece.isConst then .readOnly else .writable) :: levelsOf ps
  | .constStar :: ps => .readOnly :: levelsOf ps
  | _ :: ps => levelsOf ps

/-- The bases of integer types, in canonical words. -/
def integerBases : List (List String) :=
  [["char"], ["short"], ["int"], ["long", "int"]]

/-- The bases of types other than structs, in canonical words. -/
def canonicalBases : List (List String) :=
  integerBases ++ [["float"], ["double"], ["long", "double"], ["void"], ["auto"]]

/-! ## Sorting pieces -/

section

variable {seen sorted : Sorted}

theorem wordsOf_cons (p : Piece) (ps : List Piece) : wordsOf (p :: ps) = p.words ++ wordsOf ps :=
  rfl

theorem wordsOf_append (ps ps' : List Piece) : wordsOf (ps ++ ps') = wordsOf ps ++ wordsOf ps' :=
  List.flatMap_append

/-- A keyword in front of all pointer levels is a word of the base. -/
theorem sortFrom_keyword {word : String} (h : word ∈ baseKeywords ++ modifiers)
    (rest : List String) : sortFrom seen (word :: rest) =
      if seen.levels.isEmpty then sortFrom { seen with base := seen.base ++ [word] } rest
      else .error .invalid := by
  have hwords : word ≠ "*" ∧ word ≠ "*const" ∧ word ≠ "struct" := by
    revert word
    decide
  obtain ⟨hstar, hconst, hstruct⟩ := hwords
  rw [sortFrom.eq_def]
  dsimp only
  rw [if_neg hstar, if_neg hconst, if_neg hstruct]
  cases seen.levels.isEmpty <;> rfl

/-- A struct is named at most once, and in front of all pointer levels. -/
theorem sortFrom_struct (tag : String) (rest : List String) :
    sortFrom seen ("struct" :: tag :: rest) =
      if seen.levels.isEmpty && seen.tag.isNone then sortFrom { seen with tag := some tag } rest
      else .error .invalid := by
  rw [sortFrom, if_neg (by decide), if_neg (by decide), if_pos rfl]
  cases seen.levels.isEmpty <;> cases seen.tag <;> rfl

/-- A star is read-only if `const` follows, which counts for nothing else then. -/
theorem sortFrom_star (rest : List String) : sortFrom seen ("*" :: rest) =
    if rest.head? = some "const" then
      sortFrom { seen with levels := .readOnly :: seen.levels } rest.tail
    else sortFrom { seen with levels := .writable :: seen.levels } rest := by
  cases rest with
  | nil => simp [sortFrom]
  | cons next rest => simp [sortFrom]

theorem sortFrom_constStar (rest : List String) : sortFrom seen ("*const" :: rest) =
    sortFrom { seen with levels := .readOnly :: seen.levels } rest := by
  rw [sortFrom.eq_def]
  dsimp only
  rw [if_neg (by decide), if_pos rfl]

/-- The first word of pieces is `const` just if the first piece is. -/
theorem head?_wordsOf (ps : List Piece) :
    (wordsOf ps).head? = some "const" ↔ ps.head?.any Piece.isConst := by
  cases ps with
  | nil => simp [wordsOf]
  | cons p ps => cases p <;> simp [wordsOf_cons, Piece.words, Piece.isConst]

/-- A `const` in front is one word, and no pointer level. -/
theorem tail_of_isConst {ps : List Piece} (h : ps.head?.any Piece.isConst) :
    (wordsOf ps).tail = wordsOf ps.tail ∧ levelsOf ps.tail = levelsOf ps := by
  cases ps with
  | nil => exact ⟨rfl, rfl⟩
  | cons p ps =>
    cases p with
    | keyword word hword => exact ⟨rfl, rfl⟩
    | star => cases h
    | constStar => cases h
    | struct tag htag => cases h

/-- What sorting pieces makes of the words before: the pointer levels of the pieces come on top,
every word of the base is a keyword, and the struct is one of the pieces. -/
structure Sorts (ps : List Piece) (seen sorted : Sorted) : Prop where
  levels : sorted.levels = (levelsOf ps).reverse ++ seen.levels
  base : ∀ word ∈ sorted.base, word ∈ seen.base ∨ word ∈ baseKeywords ++ modifiers
  tag : ∀ tag, sorted.tag = some tag → seen.tag = some tag ∨ ∃ h, .struct tag h ∈ ps

/-- The struct is one of more pieces, too. -/
theorem Sorts.tag_of_subset {ps ps' : List Piece} (h : Sorts ps seen sorted) (hsub : ps ⊆ ps')
    (tag : String) (htag : sorted.tag = some tag) :
    seen.tag = some tag ∨ ∃ h, .struct tag h ∈ ps' :=
  (h.tag tag htag).imp_right (Exists.imp fun _ hmem => hsub hmem)

/-- Sorting takes the pieces one by one, and a star with the `const` behind it. By induction on the
number of pieces. -/
theorem sorts_of_sortFrom {ps : List Piece} (h : sortFrom seen (wordsOf ps) = .ok sorted) :
    Sorts ps seen sorted := by
  induction hlength : ps.length using Nat.strongRecOn generalizing ps seen with
  | _ n ih =>
    subst hlength
    cases ps with
    | nil =>
      rw [wordsOf, List.flatMap_nil, sortFrom] at h
      cases h
      exact ⟨rfl, fun _ hword => .inl hword, fun _ htag => .inl htag⟩
    | cons p ps =>
      have hlt : ps.length < (p :: ps).length := Nat.lt_succ_self _
      have hsub : ps ⊆ p :: ps := List.subset_cons_self p ps
      cases p with
      | keyword word hword =>
        rw [wordsOf_cons, Piece.words, List.singleton_append, sortFrom_keyword hword] at h
        split at h
        · have hsorts := ih _ hlt h rfl
          refine ⟨hsorts.levels, fun word' hword' => ?_, hsorts.tag_of_subset hsub⟩
          rcases hsorts.base word' hword' with hmem | hmem
          · rcases List.mem_append.mp hmem with hmem | hmem
            · exact .inl hmem
            · exact .inr (List.mem_singleton.mp hmem ▸ hword)
          · exact .inr hmem
        · cases h
      | struct tag htag =>
        rw [wordsOf_cons, Piece.words, List.cons_append, List.cons_append, List.nil_append,
          sortFrom_struct] at h
        split at h
        · have hsorts := ih _ hlt h rfl
          refine ⟨hsorts.levels, hsorts.base, fun tag' htag' => .inr ?_⟩
          rcases hsorts.tag_of_subset hsub tag' htag' with heq | hmem
          · cases heq
            exact ⟨htag, List.mem_cons_self⟩
          · exact hmem
        · cases h
      | constStar =>
        rw [wordsOf_cons, Piece.words, List.singleton_append, sortFrom_constStar] at h
        have hsorts := ih _ hlt h rfl
        refine ⟨?_, hsorts.base, hsorts.tag_of_subset hsub⟩
        rw [hsorts.levels, levelsOf, List.reverse_cons, List.append_assoc, List.singleton_append]
      | star =>
        rw [wordsOf_cons, Piece.words, List.singleton_append, sortFrom_star] at h
        split at h
        · rename_i hhead
          have hconst := (head?_wordsOf ps).mp hhead
          obtain ⟨hwords, hlevels⟩ := tail_of_isConst hconst
          rw [hwords] at h
          -- A `const` behind a star is taken together with it, which makes the recursion skip a
          -- piece.
          have htail : ps.tail.length < (Piece.star :: ps).length := by
            rw [List.length_tail, List.length_cons]
            omega
          have hsorts := ih _ htail h rfl
          refine ⟨?_, hsorts.base, hsorts.tag_of_subset fun p hp => hsub (List.mem_of_mem_tail hp)⟩
          rw [hsorts.levels, hlevels, levelsOf, if_pos hconst, List.reverse_cons,
            List.append_assoc, List.singleton_append]
        · rename_i hhead
          have hconst := mt (head?_wordsOf ps).mpr hhead
          have hsorts := ih _ hlt h rfl
          refine ⟨?_, hsorts.base, hsorts.tag_of_subset hsub⟩
          rw [hsorts.levels, levelsOf, if_neg hconst, List.reverse_cons, List.append_assoc,
            List.singleton_append]

/-- Keywords in front of all pointer levels are words of the base. -/
theorem sortFrom_keywords (seen : Sorted) {words : List String}
    (hwords : words ⊆ baseKeywords ++ modifiers) (hlevels : seen.levels = [])
    (rest : List String) : sortFrom seen (words ++ rest) =
      sortFrom { seen with base := seen.base ++ words } rest := by
  induction words generalizing seen with
  | nil => rw [List.nil_append, List.append_nil]
  | cons word words ih =>
    obtain ⟨hword, hwords⟩ := List.cons_subset.mp hwords
    rw [List.cons_append, sortFrom_keyword hword, if_pos (by rw [hlevels]; rfl)]
    rw [ih { seen with base := seen.base ++ [word] } hwords hlevels, List.append_assoc,
      List.singleton_append]

theorem sortFrom_marks (levels : List Level) : sortFrom seen (levels.map Level.word) =
    .ok { seen with levels := levels.reverse ++ seen.levels } := by
  induction levels generalizing seen with
  | nil => rw [List.map_nil, sortFrom, List.reverse_nil, List.nil_append]
  | cons level levels ih =>
    have hhead : (levels.map Level.word).head? ≠ some "const" := by
      cases levels with
      | nil => simp
      | cons level levels => cases level <;> simp [Level.word]
    rw [List.map_cons, List.reverse_cons, List.append_assoc, List.singleton_append]
    cases level with
    | writable => rw [Level.word, sortFrom_star, if_neg hhead, ih]
    | readOnly => rw [Level.word, sortFrom_constStar, ih]

end

/-! ## The words of a type -/

variable {find? : String → Option Nat}

/-- What the words of a type are sorted into: the words of its base, its tag and its levels. -/
theorem sortFrom_words (t : CType) : sortFrom ⟨[], none, []⟩ t.words = .ok
    ⟨(if t.isConst then ["const"] else []) ++ (if t.struct?.isSome then [] else t.base.words),
      t.tag?, t.levels⟩ := by
  have hmarks : t.marks = t.levels.reverse.map Level.word := (List.map_reverse ..).symm
  have hconst : (if t.isConst then ["const"] else []) ⊆ baseKeywords ++ modifiers := by
    cases t.isConst <;> decide
  rw [words, baseWords, List.append_assoc, sortFrom_keywords _ hconst rfl]
  cases ht : t.struct? with
  | none =>
    have hbase : t.base.words ⊆ baseKeywords ++ modifiers := by
      cases hb : t.base with
      | integer kind unsigned => cases kind <;> cases unsigned <;> decide
      | struct tag decl => exact absurd hb (ne_struct_of_struct?_eq_none ht tag decl)
      | _ => decide
    rw [sortFrom_keywords _ hbase rfl, hmarks, sortFrom_marks, List.reverse_reverse, tag?, ht]
    simp
  | some struct =>
    rw [base_of_struct? ht, Base.words, List.cons_append, List.cons_append, List.nil_append,
      sortFrom_struct]
    dsimp only
    rw [List.isEmpty_nil, Option.isNone_none, Bool.and_true, if_pos rfl, List.nil_append, hmarks,
      sortFrom_marks, List.reverse_reverse, tag?, ht]
    simp

/-- The words of a type stand for the type itself, where its tag stands for its struct. A type left
to the initializer has no base that could be read-only. -/
theorem ofWords_words {t : CType} (hauto : t.base = .auto → t.isConst = false)
    (hstruct : ∀ tag decl, t.struct? = some (tag, decl) → find? tag = some decl) :
    ofWords find? t.words = .ok t := by
  obtain ⟨isConst, base, levels⟩ := t
  rw [ofWords, sortFrom_words]
  cases base with
  | integer kind unsigned => cases isConst <;> cases kind <;> cases unsigned <;> rfl
  | struct tag decl =>
    have hfind : find? tag = some decl := hstruct tag decl rfl
    have hcomplaint : complaint? ((if isConst then ["const"] else []) ++ []) = none := by
      cases isConst <;> rfl
    simp only [bind, Except.bind, struct?, tag?, Option.isSome_some, if_true, Option.map_some,
      hcomplaint, hfind]
    cases isConst <;> rfl
  | auto =>
    obtain rfl : isConst = false := hauto rfl
    rfl
  | _ => cases isConst <;> rfl

/-! ## What words that stand for a type are sorted into -/

theorem ne_auto_of_baseOfWords {words : List String} {base : Base}
    (h : baseOfWords words = .ok base) : base ≠ .auto := by
  unfold baseOfWords at h
  grind

/-- The levels and the tag of a type come from its words, and no type left to the initializer is
read-only. -/
theorem sorted_of_ofWords {words : List String} {t : CType} (h : ofWords find? words = .ok t) :
    ∃ sorted, sortFrom ⟨[], none, []⟩ words = .ok sorted ∧ t.levels = sorted.levels ∧
      t.tag? = sorted.tag ∧ (t.base = .auto → t.isConst = false) := by
  rw [ofWords] at h
  cases hsorted : sortFrom ⟨[], none, []⟩ words with
  | error e =>
    rw [hsorted] at h
    cases h
  | ok sorted =>
    refine ⟨sorted, rfl, ?_⟩
    rw [hsorted] at h
    simp only [bind, Except.bind] at h
    split at h
    · cases h
    split at h
    · rename_i tag htag
      split at h
      · cases h
      split at h
      · cases h
      · cases h
        exact ⟨rfl, htag.symm, fun hauto => by cases hauto⟩
    · rename_i htag
      split at h
      · split at h
        · cases h
        · cases h
          exact ⟨rfl, htag.symm, fun _ => rfl⟩
      · cases hbase : baseOfWords sorted.base with
        | error e =>
          rw [hbase] at h
          cases h
        | ok base =>
          rw [hbase] at h
          cases h
          refine ⟨rfl, ?_, fun hauto => absurd hauto (ne_auto_of_baseOfWords hbase)⟩
          rw [tag?, struct?_of_baseOfWords hbase, htag, Option.map_none]

/-- The words of a type that words stand for are read back as the same type. -/
theorem ofWords_words_of_ofWords {words : List String} {t : CType}
    (h : ofWords find? words = .ok t) : ofWords find? t.words = .ok t := by
  obtain ⟨_, -, -, -, hauto⟩ := sorted_of_ofWords h
  exact ofWords_words hauto fun _ _ ht => find?_of_ofWords h ht

/-- Words in canonical form: `const` and `unsigned` at most once and in front, `unsigned` only for
integers, a base or a struct of the pieces, and the pointer levels of the pieces in their order. -/
structure Canonical (ps : List Piece) (words : List String) : Prop where
  form : ∃ (isConst unsigned : Bool) (base : List String),
    words = (if isConst then ["const"] else []) ++ (if unsigned then ["unsigned"] else []) ++
      base ++ (levelsOf ps).map Level.word ∧
    (base ∈ canonicalBases ∨ ∃ tag h, .struct tag h ∈ ps ∧ base = ["struct", tag]) ∧
    (unsigned → base ∈ integerBases)
  const_once : words.count "const" ≤ 1

/-- The words of a base in canonical form. -/
theorem words_of_base (b : Base) : ∃ (unsigned : Bool) (base : List String),
    b.words = (if unsigned then ["unsigned"] else []) ++ base ∧
      (base ∈ canonicalBases ∨ ∃ tag decl, b = .struct tag decl ∧ base = ["struct", tag]) ∧
      (unsigned → base ∈ integerBases) := by
  cases b with
  | integer kind unsigned =>
    refine ⟨unsigned, kind.words, rfl, .inl ?_, fun _ => ?_⟩ <;> cases kind <;> decide
  | struct tag decl => exact ⟨false, _, rfl, .inr ⟨tag, decl, rfl, rfl⟩, nofun⟩
  | _ => exact ⟨false, _, rfl, .inl (by decide), nofun⟩

/-- The words of a type hold `const` just if its base is read-only, unless its tag is `const`. -/
theorem count_const_words {t : CType} (htag : t.tag? ≠ some "const") :
    t.words.count "const" = if t.isConst then 1 else 0 := by
  have hmarks : t.marks.count "const" = 0 := by
    refine List.count_eq_zero.mpr fun hmem => ?_
    obtain ⟨level, -, hlevel⟩ := List.mem_map.mp (List.mem_reverse.mp hmem)
    cases level <;> revert hlevel <;> decide
  have hbase : t.base.words.count "const" = 0 := by
    refine List.count_eq_zero.mpr fun hmem => ?_
    cases ht : t.struct? with
    | none => exact (forall_mem_words (ne_struct_of_struct?_eq_none ht) _ hmem).2 rfl
    | some struct =>
      rw [base_of_struct? ht, Base.words] at hmem
      rw [tag?, ht] at htag
      simp at hmem
      exact htag (congrArg some hmem.symm)
  rw [words, baseWords, List.count_append, List.count_append, hmarks, hbase]
  cases t.isConst <;> rfl

/-- The words of a type that pieces stand for are in canonical form. -/
theorem canonical_words {ps : List Piece} {t : CType} (h : ofWords find? (wordsOf ps) = .ok t) :
    Canonical ps t.words := by
  obtain ⟨sorted, hsorted, hlevels, htag, -⟩ := sorted_of_ofWords h
  have hsorts := sorts_of_sortFrom hsorted
  -- the struct of the type is one of the pieces
  have hpiece : ∀ tag, t.tag? = some tag → ∃ h, .struct tag h ∈ ps := fun tag ht =>
    (hsorts.tag tag (htag.symm.trans ht)).resolve_left (Option.some_ne_none tag).symm
  have hmarks : t.marks = (levelsOf ps).map Level.word := by
    rw [marks, hlevels, hsorts.levels, List.append_nil, List.map_reverse, List.reverse_reverse]
  constructor
  · obtain ⟨unsigned, base, hwords, hbase, hunsigned⟩ := words_of_base t.base
    refine ⟨t.isConst, unsigned, base, ?_, hbase.imp_right ?_, hunsigned⟩
    · rw [words, baseWords, hwords, hmarks, List.append_assoc _ _ base]
    · rintro ⟨tag, decl, hstruct, rfl⟩
      obtain ⟨h, hmem⟩ := hpiece tag (by rw [tag?, struct?, hstruct]; rfl)
      exact ⟨tag, h, hmem, rfl⟩
  · have htag : t.tag? ≠ some "const" := by
      intro ht
      obtain ⟨h, -⟩ := hpiece _ ht
      exact h (by decide)
    rw [count_const_words htag]
    split <;> decide

/-! ## The order of the pieces -/

section

variable {words words' : List String}

theorem eq_of_perm_of_length_le {α : Type} {l l' : List α} (h : l.Perm l') (hl : l.length ≤ 1) :
    l = l' := by
  cases l with
  | nil => exact h.symm.eq_nil.symm
  | cons a l =>
    obtain rfl : l = [] := by simpa using hl
    exact List.singleton_perm.mp h

/-- Which words a base is made of decides what is wrong with them, and not their order. -/
theorem complaint?_perm (h : words.Perm words') (hwords : words ⊆ baseKeywords ++ modifiers) :
    complaint? words = complaint? words' := by
  have hknown : ∀ {ws : List String}, ws ⊆ baseKeywords ++ modifiers →
      ws.find? (fun w => !baseKeywords.contains w && !modifiers.contains w) = none := by
    intro ws hws
    refine List.find?_eq_none.mpr fun w hw => ?_
    have hmem := List.mem_append.mp (hws hw)
    simpa [imp_iff_not_or] using hmem
  rw [complaint?, complaint?, hknown hwords, hknown fun w hw => hwords (h.mem_iff.mpr hw)]
  simp only [h.count_eq]

/-- Which words a base is made of decides which base they name, and not their order. -/
theorem baseOfWords_perm (h : words.Perm words') : baseOfWords words = baseOfWords words' := by
  have hkinds := h.filter fun w => baseKeywords.contains w && w ≠ "int" && w ≠ "long"
  rw [baseOfWords, baseOfWords]
  simp only [h.count_eq, h.contains_eq]
  generalize words.filter _ = kinds at hkinds ⊢
  generalize words'.filter _ = kinds' at hkinds ⊢
  by_cases hlength : kinds.length ≤ 1
  · rw [eq_of_perm_of_length_le hkinds hlength]
  · -- two kinds are too many in any order
    have hlength' := hkinds.length_eq
    match kinds, kinds' with
    | _ :: _ :: _, _ :: _ :: _ => rfl
    | _ :: _ :: _, [] => cases hlength'
    | _ :: _ :: _, [_] => cases hlength'
    | [_], _ => exact absurd (Nat.le_refl 1) hlength
    | [], _ => exact absurd (Nat.zero_le _) hlength

/-- Words that are sorted into the same levels, the same struct and the same keywords in some order
stand for the same type, or are refused for the same reason. -/
theorem ofWords_congr {sorted sorted' : Sorted}
    (h : sortFrom ⟨[], none, []⟩ words = .ok sorted)
    (h' : sortFrom ⟨[], none, []⟩ words' = .ok sorted') (hbase : sorted.base.Perm sorted'.base)
    (hwords : sorted.base ⊆ baseKeywords ++ modifiers) (htag : sorted.tag = sorted'.tag)
    (hlevels : sorted.levels = sorted'.levels) : ofWords find? words = ofWords find? words' := by
  rw [ofWords, ofWords, h, h']
  simp only [bind, Except.bind]
  rw [complaint?_perm hbase hwords, baseOfWords_perm hbase, hbase.contains_eq, hbase.contains_eq,
    hbase.any_eq, hbase.length_eq, htag, hlevels]

/-- Words in front are put in front of the words of the base. -/
theorem sortFrom_base (seen : Sorted) (words rest : List String) :
    sortFrom { seen with base := words ++ seen.base } rest =
      (sortFrom seen rest).map fun sorted => { sorted with base := words ++ sorted.base } := by
  fun_induction sortFrom seen rest with
  | case1 seen =>
    rw [sortFrom]
    rfl
  | case2 seen rest ih =>
    rw [sortFrom_star]
    exact ih
  | case3 seen next rest hnext ih =>
    rw [sortFrom_star, List.head?_cons, if_neg fun h => hnext (Option.some.inj h)]
    exact ih
  | case4 seen =>
    rw [sortFrom_star, if_neg (by simp), sortFrom]
    rfl
  | case5 seen rest _ ih =>
    rw [sortFrom_constStar]
    exact ih
  | case6 seen word rest hstar hconst hlevels =>
    rw [sortFrom.eq_def]
    dsimp only
    rw [if_neg hstar, if_neg hconst, if_pos hlevels]
    rfl
  | case7 seen hlevels hstar hconst =>
    rw [sortFrom.eq_def]
    dsimp only
    rw [if_neg hstar, if_neg hconst, if_neg hlevels, if_pos rfl]
    rfl
  | case8 seen hlevels tag rest htag =>
    obtain ⟨tag', htag'⟩ := Option.isSome_iff_exists.mp htag
    rw [sortFrom_struct, if_neg (by simp [htag'])]
    rfl
  | case9 seen hlevels tag rest htag _ _ ih =>
    have hnone : seen.levels = [] ∧ seen.tag = none := by simpa using And.intro hlevels htag
    rw [sortFrom_struct, if_pos (by simp [hnone])]
    exact ih
  | case10 seen word rest hstar hconst hlevels hstruct ih =>
    rw [sortFrom.eq_def]
    dsimp only
    rw [if_neg hstar, if_neg hconst, if_neg hlevels, if_neg hstruct, List.append_assoc]
    exact ih

end

/-- Keywords and structs in front of all pointer levels are taken in any order, and at most one of
them is a struct. -/
theorem sortFrom_front (seen : Sorted) {front : List Piece} (hlevels : seen.levels = [])
    (hfront : ∀ p ∈ front, p.isMark = false) (rest : List String) :
    sortFrom seen (wordsOf front ++ rest) =
      let tags := seen.tag.toList ++ front.filterMap Piece.tag?
      if tags.length ≤ 1 then
        sortFrom ⟨seen.base ++ front.filterMap Piece.word?, tags.head?, []⟩ rest
      else .error .invalid := by
  induction front generalizing seen with
  | nil =>
    obtain ⟨base, tag, levels⟩ := seen
    obtain rfl : levels = [] := hlevels
    cases tag <;> simp [wordsOf]
  | cons p front ih =>
    obtain ⟨hp, hrest⟩ := List.forall_mem_cons.mp hfront
    cases p with
    | star => cases hp
    | constStar => cases hp
    | keyword word hword =>
      have hnext := ih { seen with base := seen.base ++ [word] } hlevels hrest
      have hwords : (Piece.keyword word hword :: front).filterMap Piece.word? =
          word :: front.filterMap Piece.word? := rfl
      rw [wordsOf_cons, Piece.words, List.append_assoc, List.singleton_append,
        sortFrom_keyword hword, if_pos (by rw [hlevels]; rfl), hnext, hwords,
        ← List.singleton_append, List.append_assoc]
      rfl
    | struct tag htag =>
      have htags : (Piece.struct tag htag :: front).filterMap Piece.tag? =
          tag :: front.filterMap Piece.tag? := rfl
      rw [wordsOf_cons, Piece.words, List.append_assoc, List.cons_append, List.cons_append,
        List.nil_append, sortFrom_struct, hlevels, htags]
      cases hseen : seen.tag with
      | none =>
        have hnext := ih { seen with tag := some tag } hlevels hrest
        rw [hlevels] at hnext
        exact hnext
      | some tag' => simp

/-- The words of pieces in front stay in front, and the others are sorted in the same way after
pieces that name the same struct. -/
theorem sortFrom_append {front : List Piece} (hfront : ∀ p ∈ front, p.isMark = false)
    (rest : List Piece) : sortFrom ⟨[], none, []⟩ (wordsOf (front ++ rest)) =
      if (front.filterMap Piece.tag?).length ≤ 1 then
        (sortFrom ⟨[], (front.filterMap Piece.tag?).head?, []⟩ (wordsOf rest)).map fun sorted =>
          { sorted with base := front.filterMap Piece.word? ++ sorted.base }
      else .error .invalid := by
  rw [wordsOf_append, sortFrom_front _ rfl hfront, ← sortFrom_base, List.append_nil,
    Option.toList_none, List.nil_append, List.nil_append]

/-- The order of the pieces in front of the pointer levels makes no difference. -/
theorem ofWords_perm {front front' : List Piece} (h : front.Perm front')
    (hfront : ∀ p ∈ front, p.isMark = false) (rest : List Piece) :
    ofWords find? (wordsOf (front ++ rest)) = ofWords find? (wordsOf (front' ++ rest)) := by
  have htags := h.filterMap Piece.tag?
  have hsort := sortFrom_append hfront rest
  have hsort' := sortFrom_append (fun p hp => hfront p (h.mem_iff.mpr hp)) rest
  by_cases hlength : (front.filterMap Piece.tag?).length ≤ 1
  · rw [← eq_of_perm_of_length_le htags hlength] at hsort'
    rw [if_pos hlength] at hsort hsort'
    cases hrest : sortFrom ⟨[], (front.filterMap Piece.tag?).head?, []⟩ (wordsOf rest) with
    | error e =>
      rw [hrest] at hsort hsort'
      rw [ofWords, ofWords, hsort, hsort']
      rfl
    | ok sorted =>
      rw [hrest] at hsort hsort'
      have hkeywords := (sorts_of_sortFrom hsort).base
      exact ofWords_congr hsort hsort' ((h.filterMap Piece.word?).append_right _)
        (fun word hword => (hkeywords word hword).resolve_left List.not_mem_nil) rfl rfl
  · -- two structs are too many in any order
    rw [if_neg hlength] at hsort
    rw [if_neg (htags.length_eq ▸ hlength)] at hsort'
    rw [ofWords, ofWords, hsort, hsort']

/-- Pieces that stand for a type stand for one whose words are in canonical form and are read back
as they stand; and which type they stand for, or what is wrong with them, does not depend on the
order of the pieces in front of the pointer levels. -/
theorem ofWords_canonical (find? : String → Option Nat) :
    (∀ ps t, ofWords find? (wordsOf ps) = .ok t →
      Canonical ps t.words ∧ ofWords find? t.words = .ok t) ∧
    ∀ front front' rest, front.Perm front' → (∀ p ∈ front, p.isMark = false) →
      ofWords find? (wordsOf (front ++ rest)) = ofWords find? (wordsOf (front' ++ rest)) :=
  ⟨fun _ _ h => ⟨canonical_words h, ofWords_words_of_ofWords h⟩,
    fun _ _ rest h hfront => ofWords_perm h hfront rest⟩

/-- The pieces of `long const unsigned * const *`. -/
def longPieces : List Piece :=
  [.keyword "long" (by decide), .keyword "const" (by decide), .keyword "unsigned" (by decide),
    .star, .keyword "const" (by decide), .star]

/-- They are put in order, and so are `struct P const *` and `const struct P *`. -/
theorem ofWords_canonical_long :
    ofWords (fun _ => none) (wordsOf longPieces) =
        .ok ⟨true, .integer .long true, [.writable, .readOnly]⟩ ∧
      Canonical longPieces ["const", "unsigned", "long", "int", "*const", "*"] ∧
      ofWords (fun _ => none) ["const", "unsigned", "long", "int", "*const", "*"] =
        .ok ⟨true, .integer .long true, [.writable, .readOnly]⟩ ∧
      ofWords (fun _ => some 3) ["struct", "P", "const", "*"] =
        ofWords (fun _ => some 3) ["const", "struct", "P", "*"] := by
  have hlong : ofWords (fun _ => none) (wordsOf longPieces) =
      .ok ⟨true, .integer .long true, [.writable, .readOnly]⟩ := by
    have hsorted : sortFrom ⟨[], none, []⟩ (wordsOf longPieces) =
        .ok ⟨["long", "const", "unsigned"], none, [.writable, .readOnly]⟩ := by
      simp [longPieces, wordsOf, Piece.words, sortFrom]
    rw [ofWords, hsorted]
    rfl
  obtain ⟨hform, hback⟩ := (ofWords_canonical fun _ => none).1 _ _ hlong
  exact ⟨hlong, hform, hback, (ofWords_canonical fun _ => some 3).2
    [.struct "P" (by decide), .keyword "const" (by decide)]
    [.keyword "const" (by decide), .struct "P" (by decide)] [.star] (.swap _ _ _) (by decide)⟩

end MiniC.CType
