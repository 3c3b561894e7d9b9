import MiniC.Proofs.Lexing.Canonical
import MiniC.Proofs.Lexing.Partition
import MiniC.Token.Literal

set_option autoImplicit false

/-! # What string literals denote

The text between the marks of a string literal denotes characters, which are given by their codes.
A character that stands for itself denotes its own code, and an escape sequence the code that its
letter or its digits say; where digits could be read in two ways, the longer one counts. Every
string literal that is read has the codes that its text denotes. -/

namespace MiniC

open CharClass

namespace Quoted

/-- The characters that denote another one behind a backslash, and the codes they denote. -/
def simpleCodes : List (Char × Nat) :=
  [('a', 7), ('b', 8), ('t', 9), ('n', 10), ('v', 11), ('f', 12), ('r', 13), ('e', 27), ('"', 34),
   ('\'', 39), ('?', 63), ('\\', 92)]

/-- Whether the text between the marks of a string literal denotes characters with the given
codes. -/
inductive Denotes : List Char → List Nat → Prop
  | nil : Denotes [] []
  | plain {c : Char} {rest : List Char} {codes : List Nat} (hc : isPlain c = true)
    (hrest : Denotes rest codes) : Denotes (c :: rest) (c.toNat :: codes)
  | simple {c : Char} {code : Nat} {rest : List Char} {codes : List Nat}
    (hc : (c, code) ∈ simpleCodes) (hrest : Denotes rest codes) :
    Denotes ('\\' :: c :: rest) (code :: codes)
  | octal {a b c : Char} {rest : List Char} {codes : List Nat}
    (hdigits : [a, b, c].all isOctal = true) (hrest : Denotes rest codes) :
    Denotes ('\\' :: a :: b :: c :: rest) (ofDigits 8 [a, b, c] :: codes)
  | zero {rest : List Char} {codes : List Nat} (hshort : beginsWith isOctal 2 rest = false)
    (hrest : Denotes rest codes) : Denotes ('\\' :: '0' :: rest) (0 :: codes)
  | long {a b c d : Char} {rest : List Char} {codes : List Nat}
    (hdigits : [a, b, c, d].all isHex = true) (hrest : Denotes rest codes) :
    Denotes ('\\' :: 'x' :: a :: b :: c :: d :: rest) (ofDigits 16 [a, b, c, d] :: codes)
  | short {a b : Char} {rest : List Char} {codes : List Nat} (hdigits : [a, b].all isHex = true)
    (hshort : beginsWith isHex 4 (a :: b :: rest) = false) (hrest : Denotes rest codes) :
    Denotes ('\\' :: 'x' :: a :: b :: rest) (ofDigits 16 [a, b] :: codes)

theorem code_unique : ∀ p ∈ simpleCodes, ∀ q ∈ simpleCodes, p.1 = q.1 → p.2 = q.2 := by decide

theorem not_isOctal_of_mem_simpleCodes : ∀ p ∈ simpleCodes, isOctal p.1 = false := by decide

theorem ne_of_mem_simpleCodes : ∀ p ∈ simpleCodes, p.1 ≠ 'x' := by decide

/-- A text denotes no more than one sequence of characters. -/
theorem Denotes.unique {body : List Char} {codes codes' : List Nat} (h : Denotes body codes)
    (h' : Denotes body codes') : codes = codes' := by
  -- a backslash begins an escape sequence only
  have hbackslash : ¬ isPlain '\\' = true := by decide
  have hoctal {c : Char} {code : Nat} (hc : (c, code) ∈ simpleCodes) : ¬ isOctal c = true :=
    Bool.eq_false_iff.mp (not_isOctal_of_mem_simpleCodes _ hc)
  induction h generalizing codes' with
  | nil => cases h'; rfl
  | plain hc _ ih =>
    cases h' with
    | plain _ hrest => rw [ih hrest]
    | _ => exact absurd hc hbackslash
  | simple hc _ ih =>
    cases h' with
    | plain hplain _ => exact absurd hplain hbackslash
    | simple hc' hrest => exact congrArg₂ (· :: ·) (code_unique _ hc _ hc' rfl) (ih hrest)
    | octal hdigits _ => exact absurd (by simp_all) (hoctal hc)
    | zero _ _ => exact absurd rfl (hoctal hc)
    | long _ _ | short _ _ _ => exact absurd rfl (ne_of_mem_simpleCodes _ hc)
  | octal hdigits _ ih =>
    cases h' with
    | plain hplain _ => exact absurd hplain hbackslash
    | simple hc _ => exact absurd (by simp_all) (hoctal hc)
    | octal _ hrest => rw [ih hrest]
    | zero hshort _ => simp_all [beginsWith]
    | long _ _ | short _ _ _ => exact absurd hdigits (by simp [show isOctal 'x' = false from rfl])
  | zero hshort _ ih =>
    cases h' with
    | plain hplain _ => exact absurd hplain hbackslash
    | simple hc _ => exact absurd rfl (hoctal hc)
    | octal hdigits _ => simp_all [beginsWith]
    | zero _ hrest => rw [ih hrest]
  | long hdigits _ ih =>
    cases h' with
    | plain hplain _ => exact absurd hplain hbackslash
    | simple hc _ => exact absurd rfl (ne_of_mem_simpleCodes _ hc)
    | octal hdigits _ => exact absurd hdigits (by simp [show isOctal 'x' = false from rfl])
    | long _ hrest => rw [ih hrest]
    | short _ hshort _ => simp_all [beginsWith]
  | short hdigits hshort _ ih =>
    cases h' with
    | plain hplain _ => exact absurd hplain hbackslash
    | simple hc _ => exact absurd rfl (ne_of_mem_simpleCodes _ hc)
    | octal hdigits _ => exact absurd hdigits (by simp [show isOctal 'x' = false from rfl])
    | long hdigits _ => simp_all [beginsWith]
    | short _ _ hrest => rw [ih hrest]

theorem eq_append_of_beginsWith {p : Char → Bool} {k : Nat} {text : List Char}
    (h : beginsWith p k text = true) :
    ∃ front back, text = front ++ back ∧ front.length = k ∧ front.all p = true := by
  rw [beginsWith, Bool.and_eq_true, decide_eq_true_eq] at h
  exact ⟨_, _, (List.take_append_drop k text).symm, h.1, h.2⟩

theorem decodeEscape_simple {c : Char} (hc : c ∈ simpleEscapes) :
    (c, decodeEscape ['\\', c]) ∈ simpleCodes := by
  have hall : simpleEscapes.all (fun c => simpleCodes.contains (c, decodeEscape ['\\', c])) := by
    decide
  simpa using List.all_eq_true.mp hall c hc

theorem mem_of_isOctal {c : Char} (h : isOctal c = true) :
    c ∈ ['0', '1', '2', '3', '4', '5', '6', '7'] := by
  have hascii : ∀ c : Char, c.toNat < 128 → isOctal c = true →
      c ∈ ['0', '1', '2', '3', '4', '5', '6', '7'] := Number.forall_ascii (by decide)
  have hle : c.toNat ≤ '7'.toNat := by
    simp only [isOctal, Bool.and_eq_true, decide_eq_true_eq] at h
    exact UInt32.le_iff_toNat_le.mp h.2
  exact hascii c (hle.trans_lt (by decide)) h

theorem decodeEscape_octal {a b c : Char} (ha : isOctal a = true) :
    decodeEscape ['\\', a, b, c] = ofDigits 8 [a, b, c] := by
  have hdigit := mem_of_isOctal ha
  simp only [List.mem_cons, List.not_mem_nil, or_false] at hdigit
  rcases hdigit with rfl | rfl | rfl | rfl | rfl | rfl | rfl | rfl <;> rfl

/-- An escape of four or of two hexadecimal digits in front of the rest of a string literal. -/
theorem Denotes.hexEscape {rest body tail : List Char} {k : Nat} {codes : List Nat}
    (hescape : (if beginsWith isHex 4 rest then some 5
      else if beginsWith isHex 2 rest then some 3 else none) = some k)
    (hrest : ('x' :: rest).drop k = body ++ '"' :: tail) (hbody : Denotes body codes) :
    Denotes ('\\' :: ('x' :: rest).take k ++ body)
      (decodeEscape ('\\' :: ('x' :: rest).take k) :: codes) := by
  split at hescape
  next hlong =>
    cases hescape
    obtain ⟨front, back, rfl, hlength, hdigits⟩ := eq_append_of_beginsWith hlong
    match front, hlength with
    | [a, b, c, d], _ => exact .long hdigits hbody
  next hlong =>
  split at hescape
  next hshort =>
    cases hescape
    obtain ⟨front, back, rfl, hlength, hdigits⟩ := eq_append_of_beginsWith hshort
    match front, hlength with
    | [a, b], _ =>
    have hback : back = body ++ '"' :: tail := hrest
    have hnot : beginsWith isHex 4 (a :: b :: body) = false := by
      rw [← beginsWith_append_stop (p := isHex) (d := '"') rfl 4 _ tail]
      simpa [hback] using hlong
    exact .short hdigits hnot hbody
  · cases hescape

/-- An escape sequence in front of the rest of a string literal. -/
theorem Denotes.escape {rest body tail : List Char} {k : Nat} {codes : List Nat}
    (hescape : escapeLength rest = some k) (hrest : rest.drop k = body ++ '"' :: tail)
    (hbody : Denotes body codes) :
    Denotes ('\\' :: rest.take k ++ body) (decodeEscape ('\\' :: rest.take k) :: codes) := by
  cases rest with
  | nil => cases hescape
  | cons c rest =>
    rw [escapeLength_cons] at hescape
    split at hescape
    next hsimple =>
      cases hescape
      exact .simple (decodeEscape_simple (by simpa using hsimple)) hbody
    split at hescape
    next hoctal =>
      cases hescape
      rw [Bool.and_eq_true] at hoctal
      obtain ⟨front, back, rfl, hlength, hdigits⟩ := eq_append_of_beginsWith hoctal.2
      match front, hlength with
      | [a, b], _ =>
      have hall : [c, a, b].all isOctal = true := by
        rw [List.all_cons, hoctal.1, hdigits, Bool.and_self]
      show Denotes ('\\' :: c :: a :: b :: body) (decodeEscape ['\\', c, a, b] :: codes)
      rw [decodeEscape_octal hoctal.1]
      exact .octal hall hbody
    next hoctal =>
    split at hescape
    next hzero =>
      cases hescape
      subst hzero
      have hshort : beginsWith isOctal 2 rest = false := by
        have hzero : isOctal '0' = true := rfl
        simpa [hzero] using hoctal
      rw [show rest = body ++ '"' :: tail from hrest,
        beginsWith_append_stop (p := isOctal) rfl] at hshort
      exact .zero hshort hbody
    split at hescape
    next hx =>
      subst hx
      exact .hexEscape hescape hrest hbody
    · cases hescape

/-- A run of plain characters in front of the rest of a string literal. -/
theorem Denotes.append_plain {run body : List Char} {codes : List Nat}
    (hrun : ∀ c ∈ run, isPlain c = true) (hbody : Denotes body codes) :
    Denotes (run ++ body) (run.map Char.toNat ++ codes) := by
  induction run with
  | nil => exact hbody
  | cons c run ih =>
    rw [List.forall_mem_cons] at hrun
    exact .plain hrun.1 (ih hrun.2)

/-- The parts of a string literal behind its opening mark are spelled like the text up to the
closing mark, and have the codes that this text denotes. -/
theorem ReadsString.denotes {pos : Position} {text : List Char} {parts : List Part} {n : Nat}
    (h : ReadsString pos text parts n) :
    ∃ body tail, text = body ++ '"' :: tail ∧ parts.flatMap (·.text.toList) = body ++ ['"'] ∧
      Denotes body (parts.flatMap Part.codePoints) := by
  induction h with
  | close pos rest => exact ⟨[], rest, rfl, by simp, .nil⟩
  | @escape pos rest k parts n hescape _ ih =>
    obtain ⟨body, tail, hrest, hparts, hbody⟩ := ih
    have htext : rest = rest.take k ++ body ++ '"' :: tail := by
      rw [List.append_assoc, ← hrest, List.take_append_drop]
    refine ⟨'\\' :: rest.take k ++ body, tail, congrArg ('\\' :: ·) htext, ?_, ?_⟩
    · rw [List.flatMap_cons, hparts, String.toList_ofList, List.append_assoc]
    · have hcode : Part.codePoints ⟨.escape, String.ofList ('\\' :: rest.take k), pos⟩
          = [decodeEscape ('\\' :: rest.take k)] := by
        rw [Part.codePoints, String.toList_ofList]
      rw [List.flatMap_cons, hcode]
      exact .escape hescape hrest hbody
  | @run pos c rest parts n hplain _ ih =>
    obtain ⟨body, tail, hrest, hparts, hbody⟩ := ih
    have htext : rest = rest.takeWhile isPlain ++ body ++ '"' :: tail := by
      rw [List.append_assoc, ← hrest, List.takeWhile_append_dropWhile]
    refine ⟨c :: rest.takeWhile isPlain ++ body, tail, congrArg (c :: ·) htext, ?_, ?_⟩
    · rw [List.flatMap_cons, hparts, String.toList_ofList, List.append_assoc]
    · have hcodes :
          Part.codePoints ⟨.literal .string, String.ofList (c :: rest.takeWhile isPlain), pos⟩ =
            (c :: rest.takeWhile isPlain).map Char.toNat := by
        rw [Part.codePoints, String.toList_ofList]
      rw [List.flatMap_cons, hcodes]
      refine .append_plain (List.forall_mem_cons.mpr ⟨hplain, ?_⟩) hbody
      exact List.all_eq_true.mp List.all_takeWhile

end Quoted

/-- Whether a lexeme is a string literal of a text that denotes the codes of its parts. -/
def Lexeme.IsString (l : Lexeme) : Prop :=
  ∃ opening body, opening ∈ ["\"", "L\""] ∧ l.text = opening ++ String.ofList body ++ "\"" ∧
    Quoted.Denotes body l.codePoints

theorem isString_quotedLexeme {opening : Part} {pos : Position} {text : List Char}
    {parts : List Part} {n : Nat} (hopening : opening.text ∈ ["\"", "L\""])
    (hmark : opening.codePoints = []) (h : Quoted.ReadsString pos text parts n) :
    (quotedLexeme .string opening parts).IsString := by
  obtain ⟨body, tail, -, hparts, hbody⟩ := h.denotes
  refine ⟨opening.text, body, hopening, ?_, ?_⟩
  · rw [← String.toList_inj]
    simp [quotedLexeme, ← hparts, List.flatMap_map]
  · show Quoted.Denotes body ((opening :: parts).flatMap Part.codePoints)
    rw [List.flatMap_cons, hmark, List.nil_append]
    exact hbody

/-- The string literals of a source text are spelled between marks, and have the codes that their
text denotes. -/
theorem isString_of_tokenize {source : String} {tokens : List Token}
    (h : tokenize source = .ok tokens) {t : Token} (ht : t ∈ tokens)
    (hkind : t.kind = .literal .string) : t.toLexeme.IsString := by
  obtain ⟨ls, hscan, rfl⟩ := tokenize_eq_ok_iff.mp h
  have hrules : ∀ pos c rest l n, ReadsPiece pos c rest (some l) n →
      l.kind = .literal .string → l.IsString := by
    intro pos c rest l n hpiece hstring
    cases hpiece with
    | wide hparts => exact isString_quotedLexeme (by simp) rfl hparts
    | string hparts => exact isString_quotedLexeme (by simp) rfl hparts
    | number _ hread =>
      have hnumeric := (Number.fits_of_read hread).1
      rw [TokenKind.literal.inj hstring] at hnumeric
      cases hnumeric
    | name _ _ => exact absurd hstring (wordKind_ne (by decide) _)
    | _ => cases hstring
  obtain ⟨l, hl, rfl⟩ := List.mem_map.mp ht
  exact forall_of_scanFrom hrules (fun _ hl => absurd hl List.not_mem_nil) hscan l hl hkind

end MiniC
