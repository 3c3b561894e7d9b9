import MiniC.Proofs.Lexing.Driver.Pieces
import MiniC.Proofs.Lexing.Numbering

set_option autoImplicit false

/-! # The driver always ends

Reading by the driver, character by character, gives the lexemes that the rules give, or stops with
the same error. It ends for every source text. -/

namespace MiniC

namespace Driver

variable {text rest : List Char} {before : List Lexeme} {d : Driver}

/-- Whether the driver comes from between two constructs to what the rules say of the whole text
in front of it. -/
def Scans (text : List Char) (d : Driver) : Except LexicalError (List Lexeme) → Prop
  | .ok ls => ∃ t, d.Comes text (.ok t) ∧ t.offset = text.length ∧ t.mode = .default ∧
      t.lexemes.map retag = ls
  | .error e => d.Comes text (.error (.rejected e))

theorem Scans.of_comes {t : Driver} {r : Except LexicalError (List Lexeme)}
    (h : d.Comes text (.ok t)) (ht : t.Scans text r) : d.Scans text r := by
  cases r with
  | error e => exact h.trans ht
  | ok ls =>
    obtain ⟨u, hu, hend⟩ := ht
    exact ⟨u, h.trans hu, hend⟩

theorem Placed.of_comes {t : Driver} (htext : text.getLast? = some ' ') (hd : d.Placed text)
    (h : d.Comes text (.ok t)) : t.Placed text := by
  obtain ⟨n, hn⟩ := h
  have hyields := yieldsAfter_calls htext n hd
  rw [hn] at hyields
  exact hyields.1

/-- The space behind the text is passed last. -/
theorem scans_end (hmode : d.mode = .default) (h : d.ahead text = [' ']) :
    d.Scans text (.ok (d.lexemes.map retag)) := by
  have hcall := comes_call (lt_of_ahead h)
  rw [call, hmode] at hcall
  dsimp only at hcall
  have hspace : CharClass.isSpace ' ' = true := rfl
  rw [callDefault, look_eq h, if_pos hspace, advance_one h] at hcall
  exact ⟨_, hcall, length_of_ahead h, hmode, rfl⟩

theorem scans_scanFrom (htext : text.getLast? = some ' ') (hd : d.Placed text)
    (hmode : d.mode = .default) (h : d.ahead text = rest ++ [' '])
    (hbefore : d.lexemes.map retag = before.reverse) :
    d.Scans text (scanFrom d.pos before rest) := by
  generalize hpos : d.pos = pos
  induction pos, before, rest using scanFrom.induct generalizing d with
  | case1 pos before =>
    rw [scanFrom, ← hbefore]
    exact scans_end hmode h
  | case2 pos before c rest e herror =>
    have hpiece := reads_readPiece htext hd hmode h
    rw [hpos, herror] at hpiece
    rw [scanFrom, herror]
    exact hpiece
  | case3 pos before c rest piece n hok ih =>
    have hpiece := reads_readPiece htext hd hmode h
    rw [hpos, hok] at hpiece
    -- the driver is between two constructs again, in front of what is left
    obtain ⟨hle, ls, t, hcomes, hbehind, hls⟩ := hpiece
    have hsplit : d.ahead text = (c :: rest.take n) ++ (rest.drop n ++ [' ']) := by
      rw [h, List.cons_append, List.cons_append, ← List.append_assoc, List.take_append_drop]
    have hahead : t.ahead text = rest.drop n ++ [' '] := by
      rw [ahead, hbehind.offset]
      exact ahead_pass hsplit
    rw [scanFrom_cons hok]
    refine .of_comes hcomes (ih (hd.of_comes htext hcomes) hbehind.mode hahead ?_ ?_)
    · rw [hbehind.lexemes, List.map_append, hbefore, hls, List.reverse_append]
      cases piece <;> rfl
    · rw [hbehind.pos, hpos]

theorem calls_eq_of_comes {r : Except Failure Driver} {n : Nat} (h : d.Comes text r)
    (hr : IsFinal text r) (hn : IsFinal text (calls text n d)) : calls text n d = r := by
  obtain ⟨m, hm⟩ := h
  have hlater := calls_of_isFinal rfl hn (Nat.le_max_left n m)
  rw [← hlater]
  exact calls_of_isFinal hm hr (Nat.le_max_right n m)

/-! ## From the front of a source text -/

theorem getLast?_textOf (source : String) : (textOf source).getLast? = some ' ' :=
  List.getLast?_concat

theorem placed_front (source : String) : init.Placed (textOf source) :=
  placed_init (by simp [textOf])

/-- All calls stay inside the text and get on. -/
theorem forward_of_calls {source : String} {n k : Nat} {s t : Driver}
    (hs : calls (textOf source) n init = .ok s) (ht : calls (textOf source) (n + k) init = .ok t) :
    s.pos = .endOf ((textOf source).take s.offset) ∧ s.offset ≤ t.offset ∧
      t.offset ≤ (textOf source).length ∧
      (s.offset < (textOf source).length → t.offset = s.offset → k ≤ 3) := by
  have hplaced := (placed_front source).of_comes (getLast?_textOf source) ⟨n, hs⟩
  have hyields := yieldsAfter_calls (getLast?_textOf source) k hplaced
  rw [calls_add, hs] at ht
  rw [show calls (textOf source) k s = .ok t from ht] at hyields
  obtain ⟨htplaced, hforward, hrank⟩ := hyields
  refine ⟨?_, hforward, htplaced.le, fun hlt hsame => ?_⟩
  · rw [hplaced.pos, Position.start_eq_endOf, Position.after_endOf, List.nil_append]
  · have hlower := hrank hlt hsame
    have hbound : s.rank (textOf source) ≤ 3 := Mode.rank_le _ _
    omega

/-- An error is at a character of the source text, or at its end. -/
theorem exists_of_rejected {source : String} {n : Nat} {e : LexicalError}
    (h : calls (textOf source) n init = .error (.rejected e)) :
    ∃ before after, source.toList = before ++ after ∧ e.pos = .endOf before := by
  have hyields := yieldsAfter_calls (getLast?_textOf source) n (placed_front source)
  rw [h] at hyields
  obtain ⟨k, hk, hpos⟩ := hyields
  have hle : k ≤ source.toList.length := by
    simp only [textOf, List.length_append, List.length_singleton] at hk
    omega
  refine ⟨source.toList.take k, source.toList.drop k, (List.take_append_drop k _).symm, ?_⟩
  rw [hpos, textOf, List.take_append_of_le_length hle, Position.start_eq_endOf,
    Position.after_endOf, List.nil_append]

/-- The loop comes to its end, and to what the rules say. -/
theorem ends_scan (source : String) :
    (∃ s, calls (textOf source) (4 * (textOf source).length) init = .ok s ∧
      s.offset = (textOf source).length ∧ s.mode = .default ∧
      scan source = .ok (s.lexemes.map retag)) ∨
    ∃ e, calls (textOf source) (4 * (textOf source).length) init = .error (.rejected e) ∧
      scan source = .error e := by
  have hscans : init.Scans (textOf source) (scan source) :=
    scans_scanFrom (getLast?_textOf source) (placed_front source) rfl rfl rfl
  have hfinal := isFinal_calls (n := 4 * (textOf source).length) (getLast?_textOf source)
    (placed_front source) (by simp [rank, Mode.rank, init])
  cases hscan : scan source with
  | ok ls =>
    rw [hscan] at hscans
    obtain ⟨s, hs, hoffset, hmode, hls⟩ := hscans
    have hend := calls_eq_of_comes hs (Nat.le_of_eq hoffset.symm) hfinal
    exact .inl ⟨s, hend, hoffset, hmode, hls ▸ rfl⟩
  | error e =>
    rw [hscan] at hscans
    exact .inr ⟨e, calls_eq_of_comes hscans trivial hfinal, rfl⟩

end Driver

/-- Reading a source text with the driver always ends. It never looks at a character outside of the
text. It never goes back, its position is that of the next character, and no more than three calls
in a row stay at the same place. After a number of calls that is bounded by the length of the text,
the whole text is read and nothing is open, and the lexemes make the tokens of the source, or it
stops with the error of the source, which is at a character of it or at its end. -/
theorem driver_ends (source : String) :
    (∀ n, Driver.calls (Driver.textOf source) n .init ≠ .error .outside) ∧
    (∀ n k s t, Driver.calls (Driver.textOf source) n .init = .ok s →
      Driver.calls (Driver.textOf source) (n + k) .init = .ok t →
      s.pos = .endOf ((Driver.textOf source).take s.offset) ∧
      s.offset ≤ t.offset ∧ t.offset ≤ (Driver.textOf source).length ∧
      (s.offset < (Driver.textOf source).length → t.offset = s.offset → k ≤ 3)) ∧
    ∃ n ≤ 4 * (Driver.textOf source).length,
      (∃ s, Driver.calls (Driver.textOf source) n .init = .ok s ∧
        s.offset = (Driver.textOf source).length ∧ s.mode = .default ∧
        tokenize source = .ok (Lexeme.numbered (s.lexemes.map Driver.retag))) ∨
      ∃ e, Driver.calls (Driver.textOf source) n .init = .error (.rejected e) ∧
        (∃ before after, source.toList = before ++ after ∧ e.pos = .endOf before) ∧
        tokenize source = .error e := by
  refine ⟨fun n houtside => ?_, fun n k s t hs ht => Driver.forward_of_calls hs ht,
    4 * (Driver.textOf source).length, Nat.le_refl _, ?_⟩
  · have hyields := Driver.yieldsAfter_calls (Driver.getLast?_textOf source) n
      (Driver.placed_front source)
    rwa [houtside] at hyields
  rw [tokenize_eq]
  obtain ⟨s, hs, hoffset, hmode, hscan⟩ | ⟨e, he, hscan⟩ := Driver.ends_scan source
  · exact .inl ⟨s, hs, hoffset, hmode, by rw [hscan]; rfl⟩
  · exact .inr ⟨e, he, Driver.exists_of_rejected he, by rw [hscan]; rfl⟩

end MiniC
