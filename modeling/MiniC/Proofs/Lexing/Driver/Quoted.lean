import MiniC.Proofs.Lexing.Driver.Amid

set_option autoImplicit false

/-! # Quoted literals, read by the driver

The driver puts the parts of a quoted literal behind the lexemes that were read, and replaces them
by the literal at the closing mark. They are the parts that the rules for literals find at the same
place. Plain text is put there only when the run of its characters is over. -/

namespace MiniC

open CharClass

namespace Driver

variable {text cs rest : List Char} {c : Char} {d t : Driver} {before : List Lexeme}
  {kind : LiteralKind} {opening part : Part} {done parts : List Part}

/-- A part of a literal as the lexeme that it is while the literal is open. -/
def lexemeOf (p : Part) : Lexeme :=
  ⟨p.kind, p.text, p.pos, []⟩

/-- Whether the driver is in a quoted literal behind the lexemes `before`, of which it has the given
parts. -/
structure Quoting (before : List Lexeme) (mode : Mode) (parts : List Part) (d : Driver) : Prop where
  mode : d.mode = mode
  lexemes : d.lexemes = before ++ parts.map lexemeOf
  openIndex : d.openIndex = before.length
  lexeme : d.lexeme = []

/-- Whether the driver comes from the middle of a quoted literal to what the rules say of the parts
that follow. -/
def Closes (text : List Char) (before : List Lexeme) (kind : LiteralKind) (opening : Part)
    (done : List Part) (d : Driver) : Except LexicalError (List Part × Nat) → Prop
  | .ok (others, n) => ∃ cs c rest t, d.ahead text = cs ++ c :: rest ∧ cs.length = n ∧
      d.Comes text (.ok t) ∧
      Behind { d with lexemes := before } cs [quotedLexeme kind opening (done ++ others)] t
  | .error e => d.Comes text (.error (.rejected e))

theorem lt_of_ahead (h : d.ahead text = c :: rest) : d.offset < text.length := by
  have hlength := length_of_ahead h
  omega

/-- A part is read, and then the others. -/
theorem Closes.of_part {r : Except LexicalError (List Part × Nat)} (h : d.ahead text = cs ++ rest)
    (hcomes : d.Comes text (.ok t)) (hoffset : t.offset = d.offset + cs.length)
    (hpos : t.pos = d.pos.after cs) (hr : Closes text before kind opening (done ++ [part]) t r) :
    Closes text before kind opening done d (do
      let (others, n) ← r
      return (part :: others, cs.length + n)) := by
  cases r with
  | error e => exact hcomes.trans hr
  | ok closed =>
    obtain ⟨others, n⟩ := closed
    obtain ⟨cs', c, rest', u, hahead, hlength, hu, hbehind⟩ := hr
    have ht : t.ahead text = rest := by
      rw [ahead, hoffset]
      exact ahead_pass h
    have hwhole : Behind { d with lexemes := before } (cs ++ cs')
        [quotedLexeme kind opening (done ++ part :: others)] u := by
      rw [← List.append_cons] at hbehind
      exact hbehind.of_part hoffset hpos
    refine ⟨cs ++ cs', c, rest', u, ?_, ?_, hcomes.trans hu, hwhole⟩
    · rw [h, ← ht, hahead, List.append_assoc]
    · rw [List.length_append, hlength]

/-- Another part of a literal that is open. -/
theorem Quoting.emitHere {mode : Mode} (h : Quoting before mode parts d) (kind : TokenKind)
    (spelling : String) :
    Quoting before mode (parts ++ [⟨kind, spelling, d.pos⟩]) (d.emitHere kind spelling) where
  mode := h.mode
  lexemes := by rw [Driver.emitHere, h.lexemes, List.map_append, List.append_assoc]; rfl
  openIndex := h.openIndex
  lexeme := h.lexeme

theorem Quoting.pass {mode : Mode} (h : Quoting before mode parts d) (cs : List Char) :
    Quoting before mode parts (d.pass cs) :=
  ⟨h.mode, h.lexemes, h.openIndex, h.lexeme⟩

theorem Quoting.flushRun_eq {mode : Mode} (h : Quoting before mode parts d) : d.flushRun = d := by
  rw [flushRun, if_pos h.lexeme]

/-- The closing mark ends the literal. -/
theorem Quoting.repair {mode : Mode} (h : Quoting before mode (opening :: parts) d)
    (kind : LiteralKind) :
    d.repair kind = .ok { d with
      lexemes := before ++ [quotedLexeme kind opening parts]
      lexeme := []
      mode := .default } := by
  have hdrop : d.lexemes.drop d.openIndex = lexemeOf opening :: parts.map lexemeOf := by
    rw [h.lexemes, h.openIndex, List.drop_left, List.map_cons]
  have htake : d.lexemes.take d.openIndex = before := by
    rw [h.lexemes, h.openIndex, List.take_left]
  rw [Driver.repair, hdrop, htake]
  simp only [quotedLexeme, List.map_cons, List.map_map]
  have htext : (fun l : Lexeme => l.text) ∘ lexemeOf = Part.text := rfl
  have hpart : partOf ∘ lexemeOf = id := rfl
  rw [htext, hpart, List.map_id]
  rfl

theorem closes_mark {mode : Mode} (hq : Quoting before mode (opening :: done) d)
    (h : d.ahead text = c :: (rest ++ [' '])) {tokenKind : TokenKind} {spelling : String}
    (hcall : d.call text = advance text 1 (d.emitHere tokenKind spelling) >>= fun d =>
      d.repair kind) :
    Closes text before kind opening done d (.ok ([⟨tokenKind, spelling, d.pos⟩], 1)) := by
  rw [advance_one_bind (d := d.emitHere tokenKind spelling) h,
    ((hq.emitHere tokenKind spelling).pass [c]).repair] at hcall
  obtain ⟨c', others, hnext⟩ := List.exists_cons_of_ne_nil (List.append_ne_nil_of_right_ne_nil rest
    (List.cons_ne_nil ' ' []))
  rw [hnext] at h
  refine ⟨[c], c', others, _, h, rfl, hcall ▸ comes_call (lt_of_ahead h), rfl, rfl, rfl, rfl⟩

/-! ## String literals -/

theorem call_string (h : d.mode = .string) : d.call text = d.callString text := by
  rw [call, h]

/-- Behind a run of plain text, the driver does what it does when the run was put behind the other
parts. -/
theorem call_flushRun (hmode : d.mode = .string) (h : d.ahead text = c :: rest)
    (hc : Quoted.isPlain c = false ∨ rest = []) : d.call text = d.flushRun.call text := by
  have hahead : d.flushRun.ahead text = c :: rest := by
    rw [ahead, flushRun_offset, ← ahead, h]
  have hagain : d.flushRun.flushRun = d.flushRun := by rw [flushRun, if_pos (flushRun_lexeme d)]
  rw [call_string hmode, call_string ((flushRun_mode d).trans hmode), callString, callString,
    look_eq h, look_eq hahead, atSentinel_eq h, atSentinel_eq hahead, hagain, reject, reject,
    flushRun_pos]
  by_cases hend : c = '\n' ∨ rest.isEmpty = true
  · rw [if_pos hend, if_pos hend]
  rw [if_neg hend, if_neg hend]
  by_cases hclose : c = '"'
  · rw [if_pos hclose, if_pos hclose]
  rw [if_neg hclose, if_neg hclose]
  by_cases hescape : c = '\\'
  · rw [if_pos hescape, if_pos hescape]
  -- every other character is plain
  have hplain : Quoted.isPlain c = true := by
    simp only [not_or] at hend
    simp [Quoted.isPlain, hend.1, hclose, hescape]
  rcases hc with hc | rfl
  · rw [hplain] at hc
    cases hc
  · exact absurd (.inr rfl) hend

theorem Closes.of_call_eq {r : Except LexicalError (List Part × Nat)}
    (hcall : d.call text = t.call text) (hlt : d.offset < text.length)
    (hoffset : t.offset = d.offset) (hpos : t.pos = d.pos) (hmode : t.mode ≠ .default)
    (h : Closes text before kind opening done t r) : Closes text before kind opening done d r := by
  -- both go on alike, and neither is at its end yet
  have hcalls (n : Nat) : calls text (n + 1) d = calls text (n + 1) t := by
    rw [calls_succ hlt, calls_succ (hoffset ▸ hlt), hcall]
  cases r with
  | error e =>
    obtain ⟨n, hn⟩ := h
    cases n with
    | zero => cases hn
    | succ n => exact ⟨n + 1, (hcalls n).trans hn⟩
  | ok closed =>
    obtain ⟨others, n⟩ := closed
    obtain ⟨cs, c, rest, u, hahead, hlength, ⟨k, hk⟩, hbehind⟩ := h
    cases k with
    | zero =>
      cases hk
      exact absurd hbehind.mode hmode
    | succ k =>
      rw [ahead, hoffset] at hahead
      refine ⟨cs, c, rest, u, hahead, hlength, ⟨k + 1, (hcalls k).trans hk⟩, hbehind.mode, ?_, ?_,
        hbehind.lexemes⟩
      · rw [hbehind.offset, hoffset]
      · rw [hbehind.pos, hpos]

/-- An escape sequence becomes a part. -/
theorem escape_eq (h : d.ahead text = '\\' :: (rest ++ [' '])) :
    d.escape text = match Quoted.escapeLength rest with
      | none => d.reject .invalidEscape
      | some n => .ok ((d.emitHere .escape (String.ofList ('\\' :: rest.take n))).pass
          ('\\' :: rest.take n)) := by
  have hdrop : text.drop (d.offset + 1) = rest ++ [' '] := drop_eq_of_ahead ['\\'] h
  rw [escape, hdrop, Quoted.escapeLength_append_break (.inr rfl)]
  cases hn : Quoted.escapeLength rest with
  | none => rfl
  | some n =>
    have hle := Quoted.length_le_of_escapeLength hn
    have htake : (text.drop d.offset).take (n + 1) = '\\' :: rest.take n := by
      rw [← ahead, h, List.take_succ_cons, List.take_append_of_le_length hle]
    have hlength : ('\\' :: rest.take n).length = n + 1 := by
      simp [List.length_take, hle]
    have hsplit : d.ahead text = ('\\' :: rest.take n) ++ (rest.drop n ++ [' ']) := by
      rw [h, List.cons_append, ← List.append_assoc, List.take_append_drop]
    dsimp only
    rw [htake, ← hlength]
    exact advance_eq (d := d.emitHere .escape (String.ofList ('\\' :: rest.take n))) hsplit

/-- A character that stands for itself in a string literal is added to the run. -/
theorem callString_of_isPlain (h : d.ahead text = c :: rest) (hrest : rest ≠ [])
    (hc : Quoted.isPlain c = true) : d.callString text = advance text 1 (d.beginRun.collect c) := by
  have hplain : c ≠ '"' ∧ c ≠ '\\' ∧ c ≠ '\n' := by simpa [Quoted.isPlain, and_assoc] using hc
  rw [callString, look_eq h, atSentinel_eq h, if_neg, if_neg hplain.1, if_neg hplain.2.1]
  simp [hplain.2.2, hrest]

theorem comes_plain (hmode : d.mode = .string) (hlexeme : d.lexeme ≠ [])
    (h : d.ahead text = cs ++ rest) (hrest : rest ≠ []) (hcs : ∀ c ∈ cs, Quoted.isPlain c = true) :
    d.Comes text (.ok (d.collectAll id cs)) := by
  refine comes_collect id (P := fun d => d.mode = .string ∧ d.lexeme ≠ [])
    (fun d c rest hd hahead hrest hc => ⟨?_, hd.1, by simp [collect, Driver.pass]⟩)
    ⟨hmode, hlexeme⟩ h hrest hcs
  rw [call_string hd.1, callString_of_isPlain hahead hrest hc, beginRun, if_neg hd.2]
  rfl

/-- A run of plain text. -/
theorem comes_run (hq : Quoting before .string parts d) (h : d.ahead text = c :: (rest ++ [' ']))
    (hc : Quoted.isPlain c = true) :
    ∃ t, d.Comes text (.ok t) ∧ t.mode = .string ∧
      t.offset = d.offset + (c :: rest.takeWhile Quoted.isPlain).length ∧
      t.pos = d.pos.after (c :: rest.takeWhile Quoted.isPlain) ∧
      Quoting before .string (parts ++ [⟨.literal .string,
        String.ofList (c :: rest.takeWhile Quoted.isPlain), d.pos⟩]) t.flushRun := by
  have hrun := forall_of_takeWhile (p := Quoted.isPlain) rest
  have hsplit : rest ++ [' '] =
      rest.takeWhile Quoted.isPlain ++ (rest.dropWhile Quoted.isPlain ++ [' ']) := by
    rw [← List.append_assoc, List.takeWhile_append_dropWhile]
  generalize rest.takeWhile Quoted.isPlain = run at hrun hsplit
  have hne : rest.dropWhile Quoted.isPlain ++ [' '] ≠ [] := by simp
  have hbegin : d.beginRun = { d with start := d.pos } := by rw [beginRun, if_pos hq.lexeme]
  have hfirst : d.Comes text (.ok ((Driver.collect { d with start := d.pos } c).pass [c])) := by
    have hcall := comes_call (lt_of_ahead h)
    rw [call_string hq.mode, callString_of_isPlain h (by simp) hc, hbegin,
      advance_one (d := Driver.collect { d with start := d.pos } c) h] at hcall
    exact hcall
  have hahead : ((Driver.collect { d with start := d.pos } c).pass [c]).ahead text =
      run ++ (rest.dropWhile Quoted.isPlain ++ [' ']) :=
    hsplit ▸ ahead_pass (d := Driver.collect { d with start := d.pos } c) h
  have hothers := comes_plain (by exact hq.mode) (by simp [collect, Driver.pass]) hahead hne hrun
  refine ⟨_, hfirst.trans hothers, hq.mode, ?_, ?_, ?_⟩
  · simp [collectAll, Driver.pass, collect, Nat.add_comm, Nat.add_left_comm]
  · simp [collectAll, Driver.pass, collect]
  · rw [flushRun, if_neg (by simp [collectAll, Driver.pass, collect])]
    refine ⟨hq.mode, ?_, hq.openIndex, rfl⟩
    simp [emit, collectAll, Driver.pass, collect, hq.lexemes, hq.lexeme, lexemeOf]

theorem call_string_of_escape (hq : Quoting before .string parts d)
    (h : d.ahead text = '\\' :: (rest ++ [' '])) : d.call text = d.escape text := by
  rw [call_string hq.mode, callString, look_eq h, atSentinel_eq h, if_neg (by simp),
    if_neg (by decide), if_pos rfl, hq.flushRun_eq]

theorem closes_string {pos : Position} (hq : Quoting before .string (opening :: done) d)
    (h : d.ahead text = rest ++ [' ']) (hpos : d.pos = pos) :
    Closes text before .string opening done d (Quoted.stringParts pos rest) := by
  induction pos, rest using Quoted.stringParts.induct generalizing d done with
  | case1 pos =>
    rw [List.nil_append] at h
    have hcall := comes_call (lt_of_ahead h)
    rw [call_string hq.mode, callString, look_eq h, atSentinel_eq h, if_pos (.inr rfl), reject,
      hpos] at hcall
    rw [Quoted.stringParts]
    exact hcall
  | case2 pos rest =>
    rw [List.cons_append] at h
    have hcall := comes_call (lt_of_ahead h)
    rw [call_string hq.mode, callString, look_eq h, if_pos (.inl rfl), reject, hpos] at hcall
    rw [Quoted.stringParts]
    exact hcall
  | case3 pos rest =>
    rw [List.cons_append] at h
    rw [Quoted.stringParts, ← hpos]
    refine closes_mark hq h ?_
    rw [call_string hq.mode, callString, look_eq h, atSentinel_eq h, if_neg (by simp), if_pos rfl,
      hq.flushRun_eq]
  | case4 pos rest hescape =>
    rw [List.cons_append] at h
    have hcall := comes_call (lt_of_ahead h)
    rw [call_string_of_escape hq h, escape_eq h, hescape] at hcall
    rw [Quoted.stringParts, hescape, ← hpos]
    exact hcall
  | case5 pos rest k hescape spelling =>
    rename_i ih
    subst hpos
    rw [List.cons_append] at h
    have hcall := comes_call (lt_of_ahead h)
    rw [call_string_of_escape hq h, escape_eq h, hescape] at hcall
    have hlength : ('\\' :: rest.take k).length = k + 1 := by
      simp [List.length_take, Quoted.length_le_of_escapeLength hescape]
    have hsplit : d.ahead text = ('\\' :: rest.take k) ++ (rest.drop k ++ [' ']) := by
      rw [h, List.cons_append, ← List.append_assoc, List.take_append_drop]
    have hothers := ih ((hq.emitHere .escape (String.ofList ('\\' :: rest.take k))).pass
      ('\\' :: rest.take k)) (ahead_pass
        (d := d.emitHere .escape (String.ofList ('\\' :: rest.take k))) hsplit) rfl
    rw [Quoted.stringParts, hescape]
    dsimp only
    rw [← hlength]
    exact .of_part hsplit hcall rfl rfl hothers
  | case6 pos c rest hline hclose hescape run =>
    rename_i ih
    subst hpos
    have hplain : Quoted.isPlain c = true := by
      simp only [Quoted.isPlain, decide_not, Bool.and_eq_true, Bool.not_eq_true',
        decide_eq_false_iff_not]
      exact ⟨⟨hclose, hescape⟩, hline⟩
    have hdrop : rest.drop (run.length - 1) = rest.dropWhile Quoted.isPlain := by
      rw [List.length_cons, Nat.add_sub_cancel, drop_length_takeWhile]
    obtain ⟨t, hcomes, hmode, hoffset, htpos, hflush⟩ := comes_run hq h hplain
    have hrun : run ++ rest.dropWhile Quoted.isPlain = c :: rest := by
      rw [List.cons_append, List.takeWhile_append_dropWhile]
    have hsplit : d.ahead text = run ++ (rest.drop (run.length - 1) ++ [' ']) := by
      rw [h, hdrop, ← List.append_assoc, hrun]
    have hahead : t.ahead text = rest.drop (run.length - 1) ++ [' '] := by
      rw [ahead, hoffset]
      exact ahead_pass hsplit
    -- the run ends at a character that is not plain, or at the end of the text
    obtain ⟨c', others, hnext, hc'⟩ := exists_classEnd Quoted.isPlain rest
    rw [← hdrop] at hnext
    have hcall := call_flushRun hmode (hahead.trans hnext) (hc'.imp_right And.right)
    have hothers := ih hflush (by rw [ahead, flushRun_offset, ← ahead, hahead])
      ((flushRun_pos t).trans htpos)
    rw [Quoted.stringParts]
    · refine .of_part hsplit hcomes hoffset htpos ?_
      exact hothers.of_call_eq hcall (lt_of_ahead (hahead.trans hnext)) (flushRun_offset t)
        (flushRun_pos t) (by simp [hmode])
    all_goals assumption

/-! ## Character literals -/

theorem call_char (h : d.mode = .char) : d.call text = d.callChar text := by
  rw [call, h]

theorem Quoting.content_eq {mode : Mode} (h : Quoting before mode (opening :: parts) d) :
    d.content = parts.length := by
  rw [content, h.lexemes, h.openIndex]
  simp

/-- A character literal ends at the end of its line. -/
theorem comes_unclosed (hmode : d.mode = .char) (h : d.ahead text = c :: rest)
    (hc : c = '\n' ∨ rest = []) :
    d.Comes text (.error (.rejected ⟨.unclosedQuote, d.pos⟩)) := by
  have hcall := comes_call (lt_of_ahead h)
  rw [call_char hmode, callChar, look_eq h, atSentinel_eq h, if_pos (by simpa using hc)] at hcall
  exact hcall

/-- What follows the content of a character literal. -/
def charEnd (pos : Position) (rest : List Char) : Except LexicalError (List Part × Nat) :=
  if rest = [] ∨ rest.head? = some '\n' then .error ⟨.unclosedQuote, pos⟩
  else if rest.head? = some '\'' then .ok ([⟨.quote, "'", pos⟩], 1)
  else .error ⟨.invalidChar, pos⟩

theorem charEnd_of_other {pos : Position} (hnil : rest ≠ []) (hline : ∀ tail, rest ≠ '\n' :: tail)
    (hquote : ∀ tail, rest ≠ '\'' :: tail) : charEnd pos rest = .error ⟨.invalidChar, pos⟩ := by
  obtain ⟨c, tail, rfl⟩ := List.exists_cons_of_ne_nil hnil
  have hc : c ≠ '\n' := fun h => hline tail (h ▸ rfl)
  have hc' : c ≠ '\'' := fun h => hquote tail (h ▸ rfl)
  rw [charEnd, if_neg (by simp [hc]), if_neg (by simp [hc'])]

theorem charParts_escape {pos : Position} {rest : List Char} {n : Nat}
    (hn : Quoted.escapeLength rest = some n) :
    Quoted.charParts pos ('\\' :: rest) = do
      let (others, k) ← charEnd (pos.after ('\\' :: rest.take n)) (rest.drop n)
      return (⟨.escape, String.ofList ('\\' :: rest.take n), pos⟩ :: others,
        ('\\' :: rest.take n).length + k) := by
  have hlength : ('\\' :: rest.take n).length = n + 1 := by
    simp [List.length_take, Quoted.length_le_of_escapeLength hn]
  rw [hlength]
  simp only [Quoted.charParts, hn]
  generalize rest.drop n = others
  split
  · rfl
  · rfl
  · rfl
  next hnil hline hquote =>
    rw [charEnd_of_other hnil hline hquote]
    rfl

theorem charParts_plain {pos : Position} {c : Char} (rest : List Char)
    (hc : c ≠ '\n' ∧ c ≠ '\'' ∧ c ≠ '\\') :
    Quoted.charParts pos (c :: rest) = do
      let (others, k) ← charEnd (pos.after [c]) rest
      return (⟨.literal .char, String.ofList [c], pos⟩ :: others, [c].length + k) := by
  obtain ⟨hline, hquote, hescape⟩ := hc
  unfold Quoted.charParts
  split
  case h_5 heq =>
    obtain ⟨rfl, rfl⟩ := List.cons.inj heq
    dsimp only
    split
    · rfl
    · rfl
    · rfl
    next hnil hline hquote =>
      rw [charEnd_of_other hnil hline hquote]
      rfl
  all_goals simp_all

/-- Behind its content, a character literal is closed. -/
theorem closes_charEnd (hq : Quoting before .char [opening, part] d)
    (h : d.ahead text = rest ++ [' ']) :
    Closes text before .char opening [part] d (charEnd d.pos rest) := by
  have hcontent : d.content = 1 := hq.content_eq
  cases rest with
  | nil => exact comes_unclosed hq.mode h (.inr rfl)
  | cons c rest =>
    rw [List.cons_append] at h
    by_cases hline : c = '\n'
    · subst hline
      exact comes_unclosed hq.mode h (.inl rfl)
    by_cases hquote : c = '\''
    · subst hquote
      refine closes_mark hq h ?_
      rw [call_char hq.mode, callChar, look_eq h, atSentinel_eq h, if_neg (by simp), if_pos rfl,
        if_neg (by simp [hcontent])]
    · have hend : charEnd d.pos (c :: rest) = .error ⟨.invalidChar, d.pos⟩ :=
        charEnd_of_other (List.cons_ne_nil c rest) (by simp [hline]) (by simp [hquote])
      have hcall := comes_call (lt_of_ahead h)
      rw [call_char hq.mode, callChar, look_eq h, atSentinel_eq h, if_neg (by simp [hline]),
        if_neg hquote, if_pos (by simp [hcontent])] at hcall
      rw [hend]
      exact hcall

theorem closes_char (hq : Quoting before .char [opening] d) (h : d.ahead text = rest ++ [' ']) :
    Closes text before .char opening [] d (Quoted.charParts d.pos rest) := by
  have hcontent : d.content = 0 := hq.content_eq
  cases rest with
  | nil => exact comes_unclosed hq.mode h (.inr rfl)
  | cons c rest =>
    rw [List.cons_append] at h
    have hcall := comes_call (lt_of_ahead h)
    by_cases hline : c = '\n'
    · subst hline
      exact comes_unclosed hq.mode h (.inl rfl)
    rw [call_char hq.mode, callChar, look_eq h, atSentinel_eq h, if_neg (by simp [hline])] at hcall
    by_cases hquote : c = '\''
    · subst hquote
      rw [if_pos rfl, if_pos hcontent] at hcall
      exact hcall
    rw [if_neg hquote, if_neg (by simp [hcontent])] at hcall
    by_cases hescape : c = '\\'
    · subst hescape
      rw [if_pos rfl, escape_eq h] at hcall
      cases hn : Quoted.escapeLength rest with
      | none =>
        rw [hn] at hcall
        simp only [Quoted.charParts, hn]
        exact hcall
      | some n =>
        rw [hn] at hcall
        have hsplit : d.ahead text = ('\\' :: rest.take n) ++ (rest.drop n ++ [' ']) := by
          rw [h, List.cons_append, ← List.append_assoc, List.take_append_drop]
        rw [charParts_escape hn]
        refine .of_part hsplit hcall rfl rfl ?_
        exact closes_charEnd ((hq.emitHere _ _).pass _) (ahead_pass
          (d := d.emitHere .escape (String.ofList ('\\' :: rest.take n))) hsplit)
    · rw [if_neg hescape, advance_one (d := d.emitHere (.literal .char) (String.ofList [c])) h]
        at hcall
      rw [charParts_plain rest ⟨hline, hquote, hescape⟩]
      refine .of_part (show d.ahead text = [c] ++ (rest ++ [' ']) from h) hcall rfl rfl ?_
      exact closes_charEnd ((hq.emitHere _ _).pass _) (ahead_pass
        (d := d.emitHere (.literal .char) (String.ofList [c])) h)

end Driver

end MiniC
