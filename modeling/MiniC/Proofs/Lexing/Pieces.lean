import MiniC.Proofs.Lexing.Numbers
import MiniC.Token.Scan

set_option autoImplicit false

/-! # The extent of pieces

A piece at the front of a text takes up no more than there is, and once it is read from a text it
is read alike in front of more lines: none of the rules that end a piece looks past the end of a
line, except inside a block comment, which has its own end. -/

namespace MiniC

open CharClass

/-! ## Places in a text -/

namespace Position

/-- The line and the column behind the text `before`, counted from one: one more than the number of
line feeds, and one more than the number of characters behind the last of them. -/
def endOf (before : List Char) : Position :=
  ⟨before.count '\n' + 1, (before.reverse.takeWhile (· ≠ '\n')).length + 1⟩

theorem endOf_append_singleton (before : List Char) (c : Char) :
    endOf (before ++ [c]) = (endOf before).next c := by
  by_cases hc : c = '\n'
  · subst hc
    simp [endOf, next]
  · simp [endOf, next, hc]

theorem after_endOf (before cs : List Char) : (endOf before).after cs = endOf (before ++ cs) := by
  induction cs generalizing before with
  | nil => rw [after_nil, List.append_nil]
  | cons c cs ih =>
    rw [after_cons, ← endOf_append_singleton, ih, List.append_assoc, List.singleton_append]

theorem start_eq_endOf : start = endOf [] := rfl

end Position

/-! ## Quoted literals -/

namespace Quoted

/-- Whether a text begins with `k` characters of a class. -/
def beginsWith (p : Char → Bool) (k : Nat) (text : List Char) : Bool :=
  (text.take k).length = k && (text.take k).all p

theorem escapeLength_cons (c : Char) (rest : List Char) :
    escapeLength (c :: rest) =
      if simpleEscapes.contains c then some 1
      else if isOctal c && beginsWith isOctal 2 rest then some 3
      else if c = '0' then some 1
      else if c = 'x' then
        if beginsWith isHex 4 rest then some 5
        else if beginsWith isHex 2 rest then some 3
        else none
      else none := by
  simp only [escapeLength, beginsWith, Bool.and_assoc]
  rfl

/-- What a text begins with is seen in front of a character that is none of the class. -/
theorem beginsWith_append_stop {p : Char → Bool} {d : Char} (hp : p d = false) (k : Nat)
    (text more : List Char) : beginsWith p k (text ++ d :: more) = beginsWith p k text := by
  unfold beginsWith
  induction k generalizing text with
  | zero => rfl
  | succ k ih =>
    cases text with
    | nil => simp [hp]
    | cons c rest =>
      have hrest := ih rest
      simp only [List.cons_append, List.take_succ_cons, List.length_cons, List.all_cons,
        Nat.add_right_cancel_iff] at hrest ⊢
      rw [Bool.and_left_comm, hrest, Bool.and_left_comm]

theorem escapeLength_append_break {d : Char} (hd : IsBreak d) (text more : List Char) :
    escapeLength (text ++ d :: more) = escapeLength text := by
  cases text with
  | nil => rcases hd with rfl | rfl <;> rfl
  | cons c rest =>
    have hoctal : isOctal d = false := hd.not_mem rfl rfl
    have hhex : isHex d = false := hd.not_mem rfl rfl
    simp only [List.cons_append, escapeLength_cons, beginsWith_append_stop hoctal,
      beginsWith_append_stop hhex]

/-- The front of a text is enough to see what it begins with, if it is long enough. -/
theorem beginsWith_take (p : Char → Bool) (k j : Nat) (text : List Char) :
    beginsWith p k (text.take j) = (k ≤ j && beginsWith p k text) := by
  unfold beginsWith
  rw [List.take_take]
  by_cases hle : k ≤ j
  · simp [hle]
  · have hlength : (text.take j).length ≠ k := by
      rw [List.length_take]
      omega
    rw [Nat.min_eq_right (by omega), decide_eq_false hlength, decide_eq_false hle, Bool.false_and,
      Bool.false_and]

/-- An escape sequence is read alike without what follows it. -/
theorem escapeLength_take {text : List Char} {j k : Nat} (h : escapeLength text = some k)
    (hle : k ≤ j) : escapeLength (text.take j) = some k := by
  cases text with
  | nil => cases h
  | cons c rest =>
    rw [escapeLength_cons] at h
    obtain ⟨j, rfl⟩ : ∃ i, j = i + 1 := Nat.exists_eq_succ_of_ne_zero (by grind)
    rw [List.take_succ_cons, escapeLength_cons]
    simp only [beginsWith_take]
    grind

theorem length_le_of_escapeLength {text : List Char} {n : Nat} (h : escapeLength text = some n) :
    n ≤ text.length := by
  unfold escapeLength at h
  grind

/-- How a string literal is read behind its opening mark: by rules for the closing mark, for an
escape sequence and for a run of plain text, each in front of the other parts. -/
inductive ReadsString : Position → List Char → List Part → Nat → Prop
  | close (pos : Position) (rest : List Char) :
    ReadsString pos ('"' :: rest) [⟨.quotes, "\"", pos⟩] 1
  | escape {pos : Position} {rest : List Char} {k : Nat} {parts : List Part} {n : Nat}
    (hescape : escapeLength rest = some k)
    (hothers : ReadsString (pos.after ('\\' :: rest.take k)) (rest.drop k) parts n) :
    ReadsString pos ('\\' :: rest)
      (⟨.escape, String.ofList ('\\' :: rest.take k), pos⟩ :: parts) (k + 1 + n)
  | run {pos : Position} {c : Char} {rest : List Char} {parts : List Part} {n : Nat}
    (hplain : isPlain c = true)
    (hothers : ReadsString (pos.after (c :: rest.takeWhile isPlain)) (rest.dropWhile isPlain)
      parts n) :
    ReadsString pos (c :: rest)
      (⟨.literal .string, String.ofList (c :: rest.takeWhile isPlain), pos⟩ :: parts)
      ((c :: rest.takeWhile isPlain).length + n)

theorem ReadsString.of_stringParts {pos : Position} {text : List Char} {parts : List Part} {n : Nat}
    (h : stringParts pos text = .ok (parts, n)) : ReadsString pos text parts n := by
  induction pos, text using stringParts.induct generalizing parts n with
  | case1 pos => simp [stringParts] at h
  | case2 pos rest => simp [stringParts] at h
  | case3 pos rest =>
    simp only [stringParts, Except.ok.injEq, Prod.mk.injEq] at h
    obtain ⟨rfl, rfl⟩ := h
    exact .close pos rest
  | case4 pos rest hescape => simp [stringParts, hescape] at h
  | case5 pos rest k hescape spelling =>
    rename_i ih
    simp only [stringParts, hescape] at h
    obtain ⟨⟨others, m⟩, hothers, hresult⟩ := exists_of_bind_eq_ok h
    cases hresult
    exact .escape hescape (ih hothers)
  | case6 pos c rest hline hclose hescape run =>
    rename_i ih
    rw [stringParts] at h
    · obtain ⟨⟨others, m⟩, hothers, hresult⟩ := exists_of_bind_eq_ok h
      cases hresult
      have hothers := ih hothers
      rw [List.length_cons, Nat.add_sub_cancel, drop_length_takeWhile] at hothers
      refine .run ?_ hothers
      simp only [isPlain, decide_not, Bool.and_eq_true, Bool.not_eq_true', decide_eq_false_iff_not]
      exact ⟨⟨hclose, hescape⟩, hline⟩
    all_goals assumption

theorem ReadsString.stringParts_eq {pos : Position} {text : List Char} {parts : List Part} {n : Nat}
    (h : ReadsString pos text parts n) : stringParts pos text = .ok (parts, n) := by
  induction h with
  | close pos rest => rw [stringParts]
  | escape hescape _ ih => rw [stringParts, hescape]; simp only [ih]; rfl
  | @run pos c rest parts n hplain hothers ih =>
    simp only [isPlain, decide_not, Bool.and_eq_true, Bool.not_eq_true',
      decide_eq_false_iff_not] at hplain
    obtain ⟨⟨hclose, hescape⟩, hline⟩ := hplain
    rw [stringParts]
    · simp only [List.length_cons, Nat.add_sub_cancel, drop_length_takeWhile, ih]
      rfl
    all_goals assumption

/-- A string literal that ends on its line is read alike in front of more lines. -/
theorem ReadsString.append_lineFeed {pos : Position} {text : List Char} {parts : List Part}
    {n : Nat} (h : ReadsString pos text parts n) (more : List Char) :
    ReadsString pos (text ++ '\n' :: more) parts n := by
  induction h with
  | close pos rest => exact .close pos _
  | @escape pos rest k parts n hescape _ ih =>
    have hle := length_le_of_escapeLength hescape
    have htake : (rest ++ '\n' :: more).take k = rest.take k := List.take_append_of_le_length hle
    rw [← List.drop_append_of_le_length hle, ← htake] at ih
    rw [← htake]
    exact .escape ((escapeLength_append_break (.inl rfl) rest more).trans hescape) ih
  | @run pos c rest parts n hplain _ ih =>
    rw [← dropWhile_append_stop (p := isPlain) rfl] at ih
    rw [← takeWhile_append_stop (d := '\n') (p := isPlain) rfl rest more] at ih ⊢
    exact .run hplain ih

/-- Whether every part begins where the parts in front of it end, the first one behind the text
`before`. -/
def Consecutive (before : List Char) : List Part → Prop
  | [] => True
  | part :: parts =>
    part.pos = .endOf before ∧ Consecutive (before ++ part.text.toList) parts

/-- The parts of a string literal stand one after the other, and their texts together are the
characters it takes up. -/
theorem ReadsString.consecutive {before text : List Char} {parts : List Part} {n : Nat}
    (h : ReadsString (.endOf before) text parts n) :
    n ≤ text.length ∧ parts.flatMap (·.text.toList) = text.take n ∧ Consecutive before parts := by
  generalize hpos : Position.endOf before = pos at h
  induction h generalizing before with
  | close pos rest => simp [Consecutive, hpos]
  | @escape pos rest k parts n hescape _ ih =>
    have hle := length_le_of_escapeLength hescape
    obtain ⟨hn, hparts, hplaces⟩ := ih (by rw [← hpos, Position.after_endOf])
    rw [List.length_drop] at hn
    refine ⟨by rw [List.length_cons]; omega, ?_, hpos.symm, by rwa [String.toList_ofList]⟩
    rw [List.flatMap_cons, hparts, String.toList_ofList, List.cons_append,
      show k + 1 + n = (k + n) + 1 by omega, List.take_succ_cons, List.take_add]
  | @run pos c rest parts n hplain _ ih =>
    obtain ⟨hn, hparts, hplaces⟩ := ih (by rw [← hpos, Position.after_endOf])
    have hsum := length_takeWhile_add_dropWhile isPlain rest
    refine ⟨by simp only [List.length_cons]; omega, ?_, hpos.symm, by rwa [String.toList_ofList]⟩
    rw [List.flatMap_cons, hparts, String.toList_ofList, List.cons_append, List.length_cons,
      show (rest.takeWhile isPlain).length + 1 + n = ((rest.takeWhile isPlain).length + n) + 1 by
        omega, List.take_succ_cons, List.take_add, take_length_takeWhile, drop_length_takeWhile]

/-- How a character literal is read behind its opening mark: an escape sequence, or one other
character, in front of the closing mark. -/
inductive ReadsChar (pos : Position) : List Char → List Part → Nat → Prop
  | escape {rest tail : List Char} {k : Nat} (hescape : escapeLength rest = some k)
    (hclose : rest.drop k = '\'' :: tail) :
    ReadsChar pos ('\\' :: rest)
      [⟨.escape, String.ofList ('\\' :: rest.take k), pos⟩,
        ⟨.quote, "'", pos.after ('\\' :: rest.take k)⟩] (k + 1 + 1)
  | plain {c : Char} (tail : List Char) (hc : c ∉ ['\n', '\'', '\\']) :
    ReadsChar pos (c :: '\'' :: tail)
      [⟨.literal .char, String.ofList [c], pos⟩, ⟨.quote, "'", pos.next c⟩] 2

theorem ReadsChar.of_charParts {pos : Position} {text : List Char} {parts : List Part} {n : Nat}
    (h : charParts pos text = .ok (parts, n)) : ReadsChar pos text parts n := by
  unfold charParts at h
  split at h
  case h_1 => cases h
  case h_2 => cases h
  case h_3 => cases h
  case h_4 rest =>
    split at h
    · cases h
    next k hescape =>
      simp only at h
      split at h <;> cases h
      next tail hclose => exact .escape hescape hclose
  case h_5 c rest hline hquote hescape =>
    simp only at h
    split at h <;> cases h
    next tail => exact .plain tail (by simp_all)

theorem ReadsChar.charParts_eq {pos : Position} {text : List Char} {parts : List Part} {n : Nat}
    (h : ReadsChar pos text parts n) : charParts pos text = .ok (parts, n) := by
  cases h with
  | escape hescape hclose => simp only [charParts, hescape, hclose]
  | plain tail hc =>
    unfold charParts
    split
    case h_5 c rest _ _ _ htext =>
      cases htext
      rfl
    all_goals simp_all

/-- A character literal that ends on its line is read alike in front of more lines. -/
theorem ReadsChar.append_lineFeed {pos : Position} {text : List Char} {parts : List Part} {n : Nat}
    (h : ReadsChar pos text parts n) (more : List Char) :
    ReadsChar pos (text ++ '\n' :: more) parts n := by
  cases h with
  | @escape rest tail k hescape hclose =>
    have hle := length_le_of_escapeLength hescape
    have htake : (rest ++ '\n' :: more).take k = rest.take k := List.take_append_of_le_length hle
    have hdrop : (rest ++ '\n' :: more).drop k = '\'' :: (tail ++ '\n' :: more) := by
      rw [List.drop_append_of_le_length hle, hclose, List.cons_append]
    rw [← htake]
    exact .escape ((escapeLength_append_break (.inl rfl) rest more).trans hescape) hdrop
  | plain tail hc => exact .plain _ hc

theorem ReadsChar.consecutive {before text : List Char} {parts : List Part} {n : Nat}
    (h : ReadsChar (.endOf before) text parts n) :
    n ≤ text.length ∧ parts.flatMap (·.text.toList) = text.take n ∧ Consecutive before parts := by
  cases h with
  | @escape rest tail k hescape hclose =>
    have hlength : rest.length - k = tail.length + 1 := by
      rw [← List.length_drop, hclose, List.length_cons]
    refine ⟨by rw [List.length_cons]; omega, ?_, rfl, ?_, trivial⟩
    · simp [List.take_add, hclose]
    · rw [Position.after_endOf, String.toList_ofList]
  | plain tail hc => simp [Consecutive, Position.endOf_append_singleton]

end Quoted

/-! ## Comments and operators -/

/-- A block comment ends at its first closing mark. -/
theorem commentLength_eq_some_iff {text : List Char} {n : Nat} :
    commentLength text = some n ↔
      ∃ body tail, text = body ++ '*' :: '/' :: tail ∧ n = body.length + 2 ∧
        ¬['*', '/'] <:+: body ++ ['*'] := by
  constructor
  · intro h
    induction text using commentLength.induct generalizing n with
    | case1 => cases h
    | case2 tail =>
      cases h
      exact ⟨[], tail, rfl, rfl, by simp [List.infix_cons_iff]⟩
    | case3 c rest hopen ih =>
      rw [commentLength] at h
      · obtain ⟨m, hm, rfl⟩ := Option.map_eq_some_iff.mp h
        obtain ⟨body, tail, rfl, rfl, hbody⟩ := ih hm
        refine ⟨c :: body, tail, rfl, rfl, fun hinfix => ?_⟩
        obtain hfront | hlater := List.infix_cons_iff.mp hinfix
        · obtain ⟨rfl, hslash⟩ := List.cons_prefix_cons.mp hfront
          cases body with
          | nil => simp at hslash
          | cons d body =>
            obtain ⟨rfl, -⟩ := List.cons_prefix_cons.mp hslash
            exact hopen _ rfl rfl
        · exact hbody hlater
      · exact hopen
  · rintro ⟨body, tail, rfl, rfl, hbody⟩
    induction body with
    | nil => rfl
    | cons c body ih =>
      rw [List.cons_append, List.infix_cons_iff, not_or] at hbody
      rw [List.cons_append, commentLength, ih hbody.2]
      · rfl
      · rintro rest rfl hrest
        apply hbody.1
        cases body with
        | nil => simp at hrest
        | cons d body =>
          rw [List.cons_append, List.cons.injEq] at hrest
          exact ⟨body ++ ['*'], by rw [hrest.1]; rfl⟩

theorem commentLength_append {text : List Char} {n : Nat} (h : commentLength text = some n)
    (more : List Char) : commentLength (text ++ more) = some n := by
  obtain ⟨body, tail, rfl, hn, hbody⟩ := commentLength_eq_some_iff.mp h
  exact commentLength_eq_some_iff.mpr ⟨body, tail ++ more, by simp, hn, hbody⟩

/-- A single character behind a text does not end a comment, unless it is part of the mark. -/
theorem commentLength_append_singleton {d : Char} (hd : d ≠ '/') (text : List Char) :
    commentLength (text ++ [d]) = commentLength text := by
  induction text using commentLength.induct with
  | case1 => simp [commentLength]
  | case2 tail => rfl
  | case3 c rest hopen ih =>
    rw [List.cons_append, commentLength, commentLength, ih]
    · exact hopen
    · rintro tail rfl htail
      cases rest with
      | nil =>
        cases htail
        exact hd rfl
      | cons c' rest =>
        cases htail
        exact hopen _ rfl rfl

theorem length_le_of_commentLength {text : List Char} {n : Nat} (h : commentLength text = some n) :
    n ≤ text.length := by
  obtain ⟨body, tail, rfl, rfl, -⟩ := commentLength_eq_some_iff.mp h
  rw [List.length_append, List.length_cons, List.length_cons]
  omega

/-- The longest operator at the front of a text is a part of it. -/
theorem longestOperator_prefix (c : Char) (rest : List Char) :
    longestOperator c rest <+: c :: rest := by
  unfold longestOperator
  split
  · exact List.take_prefix 3 (c :: rest)
  split
  · exact List.take_prefix 2 (c :: rest)
  · exact List.take_prefix 1 (c :: rest)

theorem longestOperator_ne_nil (c : Char) (rest : List Char) : longestOperator c rest ≠ [] := by
  unfold longestOperator
  split
  · exact List.cons_ne_nil _ _
  split
  · exact List.cons_ne_nil _ _
  · exact List.cons_ne_nil _ _

theorem longestOperator_append_break {d : Char} (hd : IsBreak d) (c : Char)
    (rest more : List Char) : longestOperator c (rest ++ d :: more) = longestOperator c rest := by
  match rest with
  | [] => rcases hd with rfl | rfl <;> simp [longestOperator, operators3, operators2]
  | [_] => rcases hd with rfl | rfl <;> simp [longestOperator, operators3, operators2]
  | d :: e :: rest => rfl

theorem firstLine_append_lineFeed (text more : List Char) :
    firstLine (text ++ '\n' :: more) = firstLine text :=
  takeWhile_append_stop (by decide) text more

end MiniC
