import Mathlib.Data.List.Basic
import MiniC.Proofs.Lexing.Canonical
import MiniC.Proofs.Lexing.Driver
import MiniC.Proofs.Lexing.Rules

set_option autoImplicit false

/-! # What lies ahead of the driver

The driver counts the characters behind it, and the rules for lexemes look at the text in front of
them. Here the steps of the driver are told by the text that lies ahead: what it sees of it, and how
it passes a part of it. -/

namespace MiniC

open CharClass

namespace Driver

/-- The text in front of the driver. -/
def ahead (text : List Char) (d : Driver) : List Char :=
  text.drop d.offset

/-- The driver behind some more characters. -/
def pass (cs : List Char) (d : Driver) : Driver :=
  { d with offset := d.offset + cs.length, pos := d.pos.after cs }

theorem pass_append (cs cs' : List Char) (d : Driver) :
    d.pass (cs ++ cs') = (d.pass cs).pass cs' := by
  simp only [pass, List.length_append, Nat.add_assoc, Position.after_append]

variable {text cs rest : List Char} {c : Char} {d : Driver}

theorem ahead_pass (h : d.ahead text = cs ++ rest) : (d.pass cs).ahead text = rest := by
  have hdrop : (d.pass cs).ahead text = (d.ahead text).drop cs.length :=
    (List.drop_drop ..).symm
  rw [hdrop, h, List.drop_left]

theorem getElem?_of_ahead (h : d.ahead text = rest) (k : Nat) : text[d.offset + k]? = rest[k]? := by
  rw [← h, ahead, List.getElem?_drop]

theorem length_of_ahead (h : d.ahead text = c :: rest) :
    d.offset + (rest.length + 1) = text.length := by
  have hlength : text.length - d.offset = rest.length + 1 := by
    rw [← List.length_drop, ← ahead, h, List.length_cons]
  omega

/-- There is something ahead until the whole text is read. -/
theorem exists_ahead (h : d.offset < text.length) : ∃ c rest, d.ahead text = c :: rest :=
  ⟨_, _, List.drop_eq_getElem_cons h⟩

/-- The last character is passed last. -/
theorem getLast?_of_ahead (cs : List Char) (htext : text.getLast? = some ' ')
    (h : d.ahead text = cs ++ c :: rest) : (c :: rest).getLast? = some ' ' := by
  have hlast : (d.ahead text).getLast? = text.getLast? := by
    rw [ahead, List.getLast?_drop, if_neg]
    intro hle
    rw [ahead, List.drop_eq_nil_of_le hle] at h
    simp at h
  rw [← htext, ← hlast, h, List.getLast?_append_cons]

theorem ne_nil_of_ahead (cs : List Char) (htext : text.getLast? = some ' ')
    (h : d.ahead text = cs ++ c :: rest) (hc : c ≠ ' ') : rest ≠ [] := by
  rintro rfl
  have hlast := getLast?_of_ahead cs htext h
  simp only [List.getLast?_singleton, Option.some.injEq] at hlast
  exact hc hlast

theorem ne_space_of_class {p : Char → Bool} (hp : p ' ' = false) (hc : p c = true) : c ≠ ' ' := by
  rintro rfl
  simp [hp] at hc

/-! ## Looking and passing -/

theorem look_eq (h : d.ahead text = c :: rest) (go : Char → Except Failure Driver) :
    d.look text go = go c := by
  rw [look, ← Nat.add_zero d.offset, getElem?_of_ahead h]
  rfl

theorem peek_eq (h : d.ahead text = c :: rest) : d.peek text 1 = rest.head? := by
  rw [peek, getElem?_of_ahead h, List.getElem?_cons_succ, List.head?_eq_getElem?]

theorem atSentinel_eq (h : d.ahead text = c :: rest) : d.atSentinel text = rest.isEmpty := by
  have hlength := length_of_ahead h
  cases rest with
  | nil => simpa [atSentinel] using hlength
  | cons c' rest =>
    rw [List.length_cons] at hlength
    simp only [atSentinel, List.isEmpty_cons, decide_eq_false_iff_not]
    omega

theorem drop_eq_of_ahead (cs : List Char) (h : d.ahead text = cs ++ rest) :
    text.drop (d.offset + cs.length) = rest :=
  ahead_pass h

theorem advance_eq (h : d.ahead text = cs ++ rest) :
    advance text cs.length d = .ok (d.pass cs) := by
  induction cs generalizing d with
  | nil => rfl
  | cons c cs ih =>
    rw [List.cons_append] at h
    rw [List.length_cons, advance, look_eq h]
    have hahead : (d.pass [c]).ahead text = cs ++ rest := ahead_pass h
    have hpass : d.pass (c :: cs) = (d.pass [c]).pass cs := pass_append [c] cs d
    rw [hpass]
    exact ih hahead

theorem advance_one (h : d.ahead text = c :: rest) : advance text 1 d = .ok (d.pass [c]) :=
  advance_eq (show d.ahead text = [c] ++ rest from h)

theorem advance_one_bind (h : d.ahead text = c :: rest) (f : Driver → Except Failure Driver) :
    advance text 1 d >>= f = f (d.pass [c]) := by
  rw [advance_one h]
  rfl

theorem advance_two {c' : Char} (h : d.ahead text = c :: c' :: rest) :
    advance text 2 d = .ok (d.pass [c, c']) :=
  advance_eq (show d.ahead text = [c, c'] ++ rest from h)

theorem advanceUntil_of_stop {stops : Driver → Char → Bool} (h : d.ahead text = c :: rest)
    (hc : stops d c = true) (passed : List Char)
    (go : List Char → Driver → Except Failure Driver) :
    advanceUntil text stops d passed go = go passed d := by
  have hlt : d.offset < text.length := by
    have := length_of_ahead h
    omega
  have hnext : text[d.offset] = c := by
    have := getElem?_of_ahead h 0
    simpa [List.getElem?_eq_getElem hlt] using this
  rw [advanceUntil, dif_pos hlt]
  simp only [hnext, hc, if_true]

theorem advanceUntil_of_not_stop {stops : Driver → Char → Bool} (h : d.ahead text = c :: rest)
    (hc : stops d c = false) (passed : List Char)
    (go : List Char → Driver → Except Failure Driver) :
    advanceUntil text stops d passed go
      = advanceUntil text stops (d.pass [c]) (passed ++ [c]) go := by
  have hlt : d.offset < text.length := by
    have := length_of_ahead h
    omega
  have hnext : text[d.offset] = c := by
    have := getElem?_of_ahead h 0
    simpa [List.getElem?_eq_getElem hlt] using this
  rw [advanceUntil, dif_pos hlt]
  simp only [hnext, hc, Bool.false_eq_true, if_false]
  rfl

/-- All characters are passed up to one at which the driver stops. -/
theorem advanceUntil_eq {stops : Driver → Char → Bool} (h : d.ahead text = cs ++ c :: rest)
    (hcs : ∀ before c' after, cs = before ++ c' :: after → stops (d.pass before) c' = false)
    (hc : stops (d.pass cs) c = true) (passed : List Char)
    (go : List Char → Driver → Except Failure Driver) :
    advanceUntil text stops d passed go = go (passed ++ cs) (d.pass cs) := by
  induction cs generalizing d passed with
  | nil =>
    rw [List.append_nil]
    exact advanceUntil_of_stop h hc passed go
  | cons c' cs ih =>
    have hahead : (d.pass [c']).ahead text = cs ++ c :: rest := ahead_pass h
    have hpass (more : List Char) : d.pass (c' :: more) = (d.pass [c']).pass more :=
      pass_append [c'] more d
    rw [advanceUntil_of_not_stop h (hcs [] c' cs rfl), ih hahead, List.append_assoc,
      List.singleton_append, ← hpass]
    · intro before c'' after hsplit
      rw [← hpass]
      exact hcs (c' :: before) c'' after (by rw [hsplit, List.cons_append])
    · rwa [← hpass]

theorem ahead_takeWhile {p : Char → Bool} (h : d.ahead text = rest)
    (hc : rest.dropWhile p = c :: cs) : d.ahead text = rest.takeWhile p ++ c :: cs := by
  rw [← hc, List.takeWhile_append_dropWhile, h]

/-- All characters of a class are passed. -/
theorem advanceWhile_eq {p : Char → Bool} (h : d.ahead text = rest)
    (hdrop : rest.dropWhile p = c :: cs) (hc : p c = false)
    (go : List Char → Driver → Except Failure Driver) :
    advanceUntil text (fun _ c => !p c) d [] go
      = go (rest.takeWhile p) (d.pass (rest.takeWhile p)) := by
  refine advanceUntil_eq (ahead_takeWhile h hdrop) (fun before c' after hsplit => ?_)
    (by simpa using hc) [] go
  have hmem : c' ∈ rest.takeWhile p := by simp [hsplit]
  simpa using forall_of_takeWhile _ c' hmem

/-- All characters are passed up to the end of a line, or up to the last one of the text. -/
theorem advanceLine_eq (rest : List Char) (h : d.ahead text = firstLine rest ++ c :: cs)
    (hc : c = '\n' ∨ cs = []) (go : List Char → Driver → Except Failure Driver) :
    advanceUntil text (fun d c => c = '\n' || d.atSentinel text) d [] go
      = go (firstLine rest) (d.pass (firstLine rest)) := by
  refine advanceUntil_eq h (fun before c' after hsplit => ?_) ?_ [] go
  · have hmem : c' ∈ firstLine rest := by simp [hsplit]
    have hline : c' ≠ '\n' := by simpa using forall_of_takeWhile _ c' hmem
    have hahead : (d.pass before).ahead text = c' :: (after ++ c :: cs) := by
      refine ahead_pass (h.trans ?_)
      rw [hsplit, List.append_assoc, List.cons_append]
    rw [atSentinel_eq hahead]
    simp [hline]
  · rw [atSentinel_eq (ahead_pass h)]
    simpa using hc

end Driver

/-! ## Where a construct ends -/

/-- A text with a space has a character that is not in a class without the space. -/
theorem exists_dropWhile {p : Char → Bool} (hp : p ' ' = false) {text : List Char}
    (h : ' ' ∈ text) : ∃ c rest, text.dropWhile p = c :: rest ∧ p c = false := by
  induction text with
  | nil => cases h
  | cons c text ih =>
    cases hc : p c with
    | true =>
      rw [List.dropWhile_cons_of_pos hc]
      refine ih ((List.mem_cons.mp h).resolve_left ?_)
      rintro rfl
      simp [hp] at hc
    | false => exact ⟨c, text, List.dropWhile_cons_of_neg (by simp [hc]), hc⟩

/-- Such a text is a run of characters of the class, another character, and more. -/
theorem exists_run {p : Char → Bool} (hp : p ' ' = false) {text : List Char} (h : ' ' ∈ text) :
    ∃ run c rest, text = run ++ c :: rest ∧ text.takeWhile p = run ∧ text.dropWhile p = c :: rest ∧
      (∀ c' ∈ run, p c' = true) ∧ p c = false ∧ ' ' ∈ c :: rest := by
  obtain ⟨c, rest, hdrop, hc⟩ := exists_dropWhile hp h
  have hrun := forall_of_takeWhile (p := p) text
  have hsplit : text = text.takeWhile p ++ c :: rest := by
    rw [← hdrop, List.takeWhile_append_dropWhile]
  refine ⟨text.takeWhile p, c, rest, hsplit, rfl, hdrop, hrun, hc, ?_⟩
  rw [hsplit] at h
  refine (List.mem_append.mp h).resolve_left fun hmem => ?_
  have hspace := hrun ' ' hmem
  simp [hp] at hspace

/-- Behind the characters of a class there is one that is not in it, or the space at the end. -/
theorem exists_classEnd (p : Char → Bool) (text : List Char) :
    ∃ c rest, text.dropWhile p ++ [' '] = c :: rest ∧ (p c = false ∨ c = ' ' ∧ rest = []) := by
  have hhead := List.head?_dropWhile_not p text
  cases hstop : text.dropWhile p with
  | nil => exact ⟨' ', [], rfl, .inr ⟨rfl, rfl⟩⟩
  | cons c rest =>
    rw [hstop] at hhead
    exact ⟨c, rest ++ [' '], rfl, .inl hhead⟩

/-- A line ends with a line feed, or with the text. -/
theorem exists_lineEnd (text : List Char) :
    ∃ c rest, text ++ [' '] = firstLine text ++ c :: rest ∧ (c = '\n' ∨ rest = []) := by
  obtain ⟨c, rest, hstop, hc⟩ := exists_classEnd (· ≠ '\n') text
  refine ⟨c, rest, ?_, ?_⟩
  · rw [← hstop, ← List.append_assoc, firstLine, List.takeWhile_append_dropWhile]
  · simpa using hc.imp_right And.right

end MiniC
