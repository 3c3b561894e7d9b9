import MiniC.Proofs.Lexing.Driver.Ahead

set_option autoImplicit false

/-! # Every call of the driver gets on

A call passes some characters, or it hands over to a state of a lower rank, which looks at the same
character. Ranks are small, so no more than three calls in a row stay at the same place. No call
looks at a character that is not there, since the last character is a space: all states but the
default one stop in front of it. -/

namespace MiniC

open CharClass

namespace Driver

variable {text : List Char} {d t : Driver}

/-- One more than the highest rank of the states that a state may hand over to without passing
anything, where it has the given text ahead. Where a construct goes on, its state passes the next
character or hands over to another one inside the construct; where it ends, the default state
follows. -/
def Mode.rank (mode : Mode) (ahead : List Char) : Nat :=
  match mode with
  | .default => 2
  | .point | .slash => 1
  | .operator | .suffixed | .string | .char => 0
  | .identifier => if startsWith isName ahead then 1 else 3
  | .directive => if startsWith (· = '#') ahead then 1 else 3
  | .numeric | .binary | .hex => if startsWith continuesNumber ahead then 1 else 3
  | .floating => if startsWith continuesNumber ahead then 0 else 3

theorem Mode.rank_le (mode : Mode) (ahead : List Char) : mode.rank ahead ≤ 3 := by
  unfold rank
  split
  all_goals try split
  all_goals omega

/-- The rank of the state that the driver is in. -/
def rank (text : List Char) (d : Driver) : Nat :=
  d.mode.rank (d.ahead text)

/-- Whether the driver is in front of a character, and knows where. -/
structure At (text : List Char) (d : Driver) : Prop where
  lt : d.offset < text.length
  pos : d.pos = Position.start.after (text.take d.offset)

/-- Whether the driver is in a state that it may be in between two calls: the whole text is passed
in the default state only, and the other states that depend on what they are called for are at
it. -/
structure Placed (text : List Char) (d : Driver) : Prop where
  le : d.offset ≤ text.length
  ended : d.offset = text.length → d.mode = .default
  pos : d.pos = Position.start.after (text.take d.offset)
  point : d.mode = .point → startsWith (· = '.') (d.ahead text) = true
  slash : d.mode = .slash → startsWith (· = '/') (d.ahead text) = true
  quoted : d.mode = .string ∨ d.mode = .char → d.openIndex < d.lexemes.length

/-- Whether a call that began in a state gets on: it passes something or lowers the rank, or it
stops with an error at a character of the text. -/
def Yields (text : List Char) (d : Driver) : Except Failure Driver → Prop
  | .ok t => t.Placed text ∧
      (d.offset < t.offset ∨ t.offset = d.offset ∧ t.rank text < d.rank text)
  | .error (.rejected e) =>
      ∃ k < text.length, d.offset ≤ k ∧ e.pos = Position.start.after (text.take k)
  | .error .outside => False

theorem Placed.at (hd : d.Placed text) (hlt : d.offset < text.length) : d.At text :=
  ⟨hlt, hd.pos⟩

theorem take_of_ahead {cs rest : List Char} (h : d.ahead text = cs ++ rest) :
    text.take (d.offset + cs.length) = text.take d.offset ++ cs := by
  rw [List.take_add, ← ahead, h, List.take_left]

theorem At.pass {cs rest : List Char} (hd : d.At text) (h : d.ahead text = cs ++ rest)
    (hrest : rest ≠ []) : (d.pass cs).At text := by
  obtain ⟨c, others, rfl⟩ := List.exists_cons_of_ne_nil hrest
  have hlength := length_of_ahead (ahead_pass h)
  constructor
  · omega
  · rw [Driver.pass, take_of_ahead h, Position.after_append, ← hd.pos]

/-! ## The ends of a call -/

theorem yields_reject (ht : t.At text) (hle : d.offset ≤ t.offset) (cause : LexicalCause) :
    d.Yields text (t.reject cause) :=
  ⟨t.offset, ht.lt, hle, ht.pos⟩

/-- A call that hands over to another state. -/
theorem yields_turn (hd : d.At text) (hoffset : t.offset = d.offset) (hpos : t.pos = d.pos)
    (hrank : t.mode.rank (d.ahead text) < d.mode.rank (d.ahead text))
    (hpoint : t.mode = .point → startsWith (· = '.') (d.ahead text) = true)
    (hslash : t.mode = .slash → startsWith (· = '/') (d.ahead text) = true)
    (hquoted : t.mode ≠ .string ∧ t.mode ≠ .char) : d.Yields text (.ok t) := by
  have hahead : t.ahead text = d.ahead text := by rw [ahead, hoffset, ahead]
  refine ⟨⟨?_, fun h => ?_, ?_, ?_, ?_, fun h => ?_⟩, .inr ⟨hoffset, ?_⟩⟩
  · exact hoffset ▸ Nat.le_of_lt hd.lt
  · exact absurd (hoffset ▸ h) (Nat.ne_of_lt hd.lt)
  · rw [hpos, hoffset, hd.pos]
  · rwa [hahead]
  · rwa [hahead]
  · exact absurd h (not_or.mpr hquoted)
  · rwa [rank, rank, hahead]

/-- A call that ends a construct. -/
theorem yields_end (ht : t.At text) (hdefault : t.mode = .default)
    (hforward : d.offset < t.offset ∨ t.offset = d.offset ∧ 2 < d.rank text) :
    d.Yields text (.ok t) := by
  have hrank : t.rank text = 2 := by rw [rank, hdefault, Mode.rank]
  refine ⟨⟨Nat.le_of_lt ht.lt, fun _ => hdefault, ht.pos, ?_, ?_, ?_⟩, hrank ▸ hforward⟩
  all_goals simp [hdefault]

/-- Whether a driver may pass something in a state and stay in it. -/
def Lasting (t : Driver) : Prop :=
  t.mode ≠ .point ∧ t.mode ≠ .slash ∧
    (t.mode = .string ∨ t.mode = .char → t.openIndex < t.lexemes.length)

/-- A call that passes some characters, but not the last one unless it ends in the default
state. -/
theorem yields_pass {rest : List Char} (hd : d.At text) (cs : List Char)
    (h : d.ahead text = cs ++ rest) (hcs : cs ≠ []) (hoffset : t.offset = d.offset)
    (hpos : t.pos = d.pos) (ht : t.Lasting) (hend : rest = [] → t.mode = .default) : d.Yields text (.ok (t.pass cs)) := by
  have hlt : 0 < cs.length := List.length_pos_iff.mpr hcs
  have hlength : cs.length + rest.length = text.length - d.offset := by
    rw [← List.length_append, ← h, ahead, List.length_drop]
  have hdlt := hd.lt
  obtain ⟨hpoint, hslash, hquoted⟩ := ht
  refine ⟨⟨?_, fun hfull => ?_, ?_, fun h => absurd h hpoint, fun h => absurd h hslash, hquoted⟩,
    .inl ?_⟩
  · rw [pass, hoffset]
    dsimp only
    omega
  · rw [pass, hoffset] at hfull
    dsimp only at hfull
    refine hend (List.length_eq_zero_iff.mp ?_)
    omega
  · rw [pass, hoffset, hpos]
    dsimp only
    rw [take_of_ahead h, Position.after_append, ← hd.pos]
  · rw [pass, hoffset]
    dsimp only
    omega

section

variable {c : Char} {rest : List Char} (hd : d.At text) (htext : text.getLast? = some ' ')

include hd

theorem yields_advance (cs : List Char) (h : d.ahead text = cs ++ rest) (hcs : cs ≠ [])
    (hoffset : t.offset = d.offset) (hpos : t.pos = d.pos) (ht : t.Lasting)
    (hend : rest = [] → t.mode = .default) : d.Yields text (advance text cs.length t) := by
  have hahead : t.ahead text = cs ++ rest := by rw [ahead, hoffset, ← ahead, h]
  rw [advance_eq hahead]
  exact yields_pass hd cs h hcs hoffset hpos ht hend

theorem yields_advance_one (h : d.ahead text = c :: rest) (hoffset : t.offset = d.offset)
    (hpos : t.pos = d.pos) (ht : t.Lasting) (hend : rest = [] → t.mode = .default) :
    d.Yields text (advance text 1 t) :=
  yields_advance hd [c] h (List.cons_ne_nil _ _) hoffset hpos ht hend

omit hd in
theorem yields_emitInteger (ht : t.At text) {suffix : List Char} {size : LiteralSize}
    {signed : Bool} (hforward : d.offset < t.offset ∨ t.offset = d.offset ∧ 2 < d.rank text) :
    d.Yields text (t.emitInteger suffix size signed) := by
  unfold emitInteger
  split
  · exact yields_reject ht (by omega) _
  · exact yields_end ⟨ht.lt, ht.pos⟩ rfl hforward

/-! ## The states -/

section

include htext

theorem yields_callDefault (hmode : d.mode = .default) (h : d.ahead text = c :: rest) :
    d.Yields text (d.callDefault text) := by
  -- What is no space is not the last character, since a space was put behind the text.
  have hlast {p : Char → Bool} (hp : p ' ' = false) (hc : p c = true) : rest ≠ [] :=
    ne_nil_of_ahead [] htext h (ne_space_of_class hp hc)
  -- A turn to another mode takes no character; the mode that is entered then ranks below this one.
  have hturn {t : Driver} (hoffset : t.offset = d.offset) (hpos : t.pos = d.pos)
      (hrank : t.mode.rank (c :: rest) < 2) (hpoint : t.mode = .point → c = '.')
      (hslash : t.mode = .slash → c = '/') (hquoted : t.mode ≠ .string ∧ t.mode ≠ .char) :
      d.Yields text (.ok t) := by
    refine yields_turn hd hoffset hpos ?_ (fun hm => ?_) (fun hm => ?_) hquoted
    · rwa [h, hmode, Mode.rank]
    · simp [h, startsWith, hpoint hm]
    · simp [h, startsWith, hslash hm]
  rw [callDefault, look_eq h, peek_eq h]
  by_cases hspace : isSpace c = true
  · rw [if_pos hspace]
    exact yields_advance_one hd h rfl rfl (by simp [Lasting, hmode]) fun _ => hmode
  rw [if_neg hspace]
  by_cases hwide : c = 'L' ∧ rest.head? = some '"'
  · rw [if_pos hwide]
    obtain ⟨rest, rfl⟩ := List.head?_eq_some_iff.mp hwide.2
    have hrest : rest ≠ [] := ne_nil_of_ahead [c] htext h (by decide)
    exact yields_advance hd [c, '"'] h (List.cons_ne_nil _ _) rfl rfl
      (by simp [Lasting, openQuoted, emit, begin]) fun hnil => absurd hnil hrest
  rw [if_neg hwide]
  by_cases hquotes : c = '"'
  · rw [if_pos hquotes]
    exact yields_advance_one hd h rfl rfl (by simp [Lasting, openQuoted, emit, begin]) fun hnil =>
      absurd hnil (hlast (p := (· = '"')) rfl (by simpa using hquotes))
  rw [if_neg hquotes]
  by_cases hquote : c = '\''
  · rw [if_pos hquote]
    exact yields_advance_one hd h rfl rfl (by simp [Lasting, openQuoted, emit, begin]) fun hnil =>
      absurd hnil (hlast (p := (· = '\'')) rfl (by simpa using hquote))
  rw [if_neg hquote]
  by_cases hdigit : isDigit c = true
  · rw [if_pos hdigit]
    refine hturn rfl rfl ?_ ?_ ?_ ?_
    all_goals simp [toNumber, Mode.rank, startsWith, continuesNumber, isName, hdigit]
  rw [if_neg hdigit]
  by_cases hpoint : c = '.'
  · rw [if_pos hpoint]
    refine hturn rfl rfl ?_ (fun _ => hpoint) ?_ ?_
    all_goals simp [enter, Mode.rank]
  rw [if_neg hpoint]
  by_cases hname : isNameStart c = true
  · rw [if_pos hname]
    refine hturn rfl rfl ?_ ?_ ?_ ?_
    all_goals simp [enter, Mode.rank, startsWith, isName, hname]
  rw [if_neg hname]
  by_cases hsharp : c = '#'
  · rw [if_pos hsharp]
    refine hturn rfl rfl ?_ ?_ ?_ ?_
    all_goals simp [enter, Mode.rank, startsWith, hsharp]
  rw [if_neg hsharp]
  by_cases hslash : c = '/'
  · rw [if_pos hslash]
    refine hturn rfl rfl ?_ ?_ (fun _ => hslash) ?_
    all_goals simp [enter, Mode.rank]
  rw [if_neg hslash]
  by_cases hseparator : separators.contains c = true
  · rw [if_pos hseparator]
    exact yields_advance_one hd h rfl rfl (by simp [Lasting, complete, enter]) fun _ => rfl
  rw [if_neg hseparator]
  by_cases hoperator : operators1.contains c = true
  · rw [if_pos hoperator]
    refine hturn rfl rfl ?_ ?_ ?_ ?_
    all_goals simp [enter, Mode.rank]
  · rw [if_neg hoperator]
    exact yields_reject hd (Nat.le_refl _) _

theorem yields_callIdentifier (hmode : d.mode = .identifier) (h : d.ahead text = c :: rest) :
    d.Yields text (d.callIdentifier text) := by
  rw [callIdentifier, look_eq h]
  split
  next hname =>
    refine yields_advance_one hd h rfl rfl (by simp [Lasting, collect, hmode]) fun hnil => ?_
    exact absurd hnil (ne_nil_of_ahead [] htext h (ne_space_of_class rfl hname))
  next hname =>
    refine yields_end ⟨hd.lt, hd.pos⟩ rfl (.inr ⟨rfl, ?_⟩)
    simp [rank, Mode.rank, hmode, h, startsWith, hname]

omit htext in
theorem yields_callPoint (hmode : d.mode = .point) (h : d.ahead text = '.' :: rest) :
    d.Yields text (d.callPoint text) := by
  rw [callPoint]
  split
  · refine yields_turn hd rfl rfl ?_ ?_ ?_ ?_
    all_goals simp [h, hmode, Mode.rank, startsWith, continuesNumber]
  split
  · exact yields_advance_one hd h rfl rfl (by simp [Lasting, complete, enter]) fun _ => rfl
  · exact yields_reject hd (Nat.le_refl _) _

theorem yields_callDirective (hmode : d.mode = .directive) (h : d.ahead text = c :: rest) :
    d.Yields text (d.callDirective text) := by
  rw [callDirective, look_eq h, atSentinel_eq h]
  split
  next hline =>
    refine yields_advance_one hd h rfl rfl (by simp [Lasting, collect, hmode]) fun hnil => ?_
    simp [hnil] at hline
  next hline =>
    -- a directive is not left in front of its mark, which is never the last character
    have hc : c ≠ '#' := by
      rintro rfl
      have hrest : rest ≠ [] := ne_nil_of_ahead [] htext h (by decide)
      simp [hrest] at hline
    refine yields_end ⟨hd.lt, hd.pos⟩ rfl (.inr ⟨rfl, ?_⟩)
    simp [rank, Mode.rank, hmode, h, startsWith, hc]

theorem yields_callNumeric (hmode : d.mode = .numeric) (h : d.ahead text = c :: rest) :
    d.Yields text (d.callNumeric text) := by
  have hmark {b : Char} {radix : Radix} {m : Mode} (hb : b ≠ ' ') (hpeek : rest.head? = some b)
      (hm : m = .binary ∨ m = .hex) :
      d.Yields text (advance text 2 { d.enter m with radix := some radix }) := by
    obtain ⟨others, rfl⟩ := List.head?_eq_some_iff.mp hpeek
    refine yields_advance hd [c, b] h (List.cons_ne_nil _ _) rfl rfl ?_ fun hnil => ?_
    · rcases hm with rfl | rfl <;> simp [Lasting, enter]
    · exact absurd hnil (ne_nil_of_ahead [c] htext h hb)
  have hturn {m : Mode} (hm : m = .floating ∨ m = .suffixed) (hc : continuesNumber c = true) :
      d.Yields text (.ok (d.enter m)) := by
    refine yields_turn hd rfl rfl ?_ ?_ ?_ ?_
    all_goals rcases hm with rfl | rfl <;> simp [enter, hmode, h, Mode.rank, startsWith, hc]
  rw [callNumeric, look_eq h, peek_eq h]
  split
  next hbinary =>
    rcases hbinary.2.2 with hb | hb
    all_goals exact hmark (by decide) hb (.inl rfl)
  split
  next hhex =>
    rcases hhex.2.2 with hb | hb
    all_goals exact hmark (by decide) hb (.inr rfl)
  split
  next hdigit =>
    refine yields_advance_one hd h rfl rfl (by simp [Lasting, collect, hmode]) fun hnil => ?_
    exact absurd hnil (ne_nil_of_ahead [] htext h (ne_space_of_class rfl hdigit))
  next hdigit =>
    split
    next hfloating => exact hturn (.inl rfl) (by rcases hfloating with rfl | rfl | rfl <;> rfl)
    next hfloating =>
      split
      · exact yields_reject hd (Nat.le_refl _) _
      split
      next hsuffix =>
        refine hturn (.inr rfl) ?_
        simp only [isSuffix, Bool.or_eq_true, decide_eq_true_eq] at hsuffix
        rcases hsuffix with ((rfl | rfl) | rfl) | rfl <;> rfl
      split
      · exact yields_reject hd (Nat.le_refl _) _
      next hname =>
        refine yields_emitInteger hd (.inr ⟨rfl, ?_⟩)
        simp only [not_or] at hfloating
        simp [rank, Mode.rank, hmode, h, startsWith, continuesNumber, isName, hname, hdigit,
          hfloating]

theorem yields_callMarked {isRadixDigit : Char → Bool} (hdigits : isRadixDigit ' ' = false)
    (cause : LexicalCause) (hmode : d.mode = .binary ∨ d.mode = .hex)
    (h : d.ahead text = c :: rest) : d.Yields text (d.callMarked text isRadixDigit cause) := by
  have hrank : d.mode.rank (c :: rest) = if continuesNumber c then 1 else 3 := by
    rcases hmode with hmode | hmode <;> rw [hmode, Mode.rank, startsWith]
  rw [callMarked, look_eq h]
  split
  next hdigit =>
    refine yields_advance_one hd h rfl rfl ?_ fun hnil => ?_
    · rcases hmode with hmode | hmode <;> simp [Lasting, collect, hmode]
    · exact absurd hnil (ne_nil_of_ahead [] htext h (ne_space_of_class hdigits hdigit))
  split
  next hsuffix =>
    refine yields_turn hd rfl rfl ?_ (by simp [enter]) (by simp [enter]) (by simp [enter])
    rw [h, hrank]
    simp only [enter, Mode.rank]
    split <;> decide
  split
  · exact yields_reject hd (Nat.le_refl _) _
  next hcontinues =>
    refine yields_emitInteger hd (.inr ⟨rfl, ?_⟩)
    rw [rank, h, hrank, if_neg fun hc => hcontinues (.inl hc)]
    decide

theorem yields_callFloating (hmode : d.mode = .floating) (h : d.ahead text = c :: rest) :
    d.Yields text (d.callFloating text) := by
  have hlast (hc : c ≠ ' ') : rest ≠ [] := ne_nil_of_ahead [] htext h hc
  have hpass {t : Driver} (hoffset : t.offset = d.offset) (hpos : t.pos = d.pos)
      (ht : t.mode = .floating) (hc : c ≠ ' ') : d.Yields text (advance text 1 t) :=
    yields_advance_one hd h hoffset hpos (by simp [Lasting, ht]) fun hnil => absurd hnil (hlast hc)
  rw [callFloating, look_eq h]
  split
  next hpoint =>
    split
    · exact yields_reject hd (Nat.le_refl _) _
    · exact hpass rfl rfl hmode (by simp [hpoint])
  next hpoint =>
  split
  next hexponent =>
    have hc : c ≠ ' ' := by rcases hexponent with rfl | rfl <;> decide
    split
    · exact yields_reject hd (Nat.le_refl _) _
    -- the mark is not the last character, so that there is one where a sign may stand
    obtain ⟨sign, others, rfl⟩ := List.exists_cons_of_ne_nil (hlast hc)
    rw [advance_one_bind (d := { d with exponent := some [] }) h]
    have hsign : (Driver.pass [c] { d with exponent := some [] }).ahead text = sign :: others :=
      ahead_pass (d := { d with exponent := some [] }) h
    have hmore {t : Driver} (hoffset : t.offset = d.offset) (hpos : t.pos = d.pos)
        (ht : t.mode = .floating) (hspace : sign ≠ ' ') :
        d.Yields text (.ok (t.pass [c, sign])) :=
      yields_pass hd [c, sign] h (List.cons_ne_nil _ _) hoffset hpos (by simp [Lasting, ht])
        fun hnil => absurd hnil (ne_nil_of_ahead [c] htext h hspace)
    rw [look_eq hsign]
    split
    next hminus =>
      rw [advance_one (d := { Driver.pass [c] { d with exponent := some [] } with
        exponent := some ['-'] }) hsign]
      exact hmore (t := { d with exponent := some ['-'] }) rfl rfl hmode (by simp [hminus])
    split
    next hplus =>
      rw [advance_one hsign]
      exact hmore (t := { d with exponent := some [] }) rfl rfl hmode (by simp [hplus])
    · exact yields_pass hd [c] (t := { d with exponent := some [] }) h
        (List.cons_ne_nil _ _) rfl rfl (by simp [Lasting, hmode]) (by simp)
  next hexponent =>
  split
  next hdigit =>
    have hc : c ≠ ' ' := ne_space_of_class rfl hdigit
    split
    all_goals exact hpass rfl rfl hmode hc
  next hdigit =>
  split
  next hmark =>
    have hc : c ≠ ' ' := by rcases hmark with rfl | rfl <;> decide
    split
    · exact yields_reject hd (Nat.le_refl _) _
    obtain ⟨c', others, rfl⟩ := List.exists_cons_of_ne_nil (hlast hc)
    have hnext : (d.pass [c]).ahead text = c' :: others := ahead_pass h
    have hat : (d.pass [c]).At text := hd.pass h (List.cons_ne_nil _ _)
    have hlt : d.offset < (d.pass [c]).offset := Nat.lt_succ_self _
    rw [advance_one_bind h, look_eq hnext]
    split
    · exact yields_reject hat (Nat.le_of_lt hlt) _
    · exact yields_end ⟨hat.lt, hat.pos⟩ rfl (.inl hlt)
  next hmark =>
  split
  · exact yields_reject hd (Nat.le_refl _) _
  next hname =>
  split
  · exact yields_reject hd (Nat.le_refl _) _
  · refine yields_end ⟨hd.lt, hd.pos⟩ rfl (.inr ⟨rfl, ?_⟩)
    simp [rank, Mode.rank, hmode, h, startsWith, continuesNumber, isName, hname, hdigit, hpoint]

theorem yields_callSlash (h : d.ahead text = '/' :: rest) (hmode : d.mode = .slash) :
    d.Yields text (d.callSlash text) := by
  rw [callSlash, peek_eq h]
  split
  next hline =>
    obtain ⟨before, hbefore⟩ := List.getLast?_eq_some_iff.mp (getLast?_of_ahead [] htext h)
    obtain ⟨c, others, hsplit, hc⟩ := exists_lineEnd before
    rw [advanceLine_eq _ (h.trans (hbefore.trans hsplit)) hc]
    -- the line has the slash at least, so that something is passed
    have hne : firstLine before ≠ [] := by
      obtain ⟨rest, rfl⟩ := List.head?_eq_some_iff.mp hline
      cases before with
      | nil => simp at hbefore
      | cons c' before =>
        obtain ⟨rfl, -⟩ := List.cons.inj hbefore
        simp [firstLine]
    exact yields_pass hd _ (t := d.enter .default) (h.trans (hbefore.trans hsplit)) hne rfl rfl
      (by simp [Lasting, enter]) fun _ => rfl
  split
  next hcomment =>
    obtain ⟨rest, rfl⟩ := List.head?_eq_some_iff.mp hcomment
    have hdrop : text.drop (d.offset + 2) = rest := drop_eq_of_ahead ['/', '*'] h
    rw [hdrop]
    split
    · exact yields_reject hd (Nat.le_refl _) _
    next n hn =>
      have hlength : ('/' :: '*' :: rest.take n).length = n + 2 := by
        simp [List.length_take, length_le_of_commentLength hn]
      have hsplit : d.ahead text = ('/' :: '*' :: rest.take n) ++ rest.drop n := by
        rw [h, List.cons_append, List.cons_append, List.take_append_drop]
      rw [← hlength]
      exact yields_advance hd _ hsplit (List.cons_ne_nil _ _) rfl rfl (by simp [Lasting, enter])
        fun _ => rfl
  · refine yields_turn hd rfl rfl ?_ ?_ ?_ ?_
    all_goals simp [enter, hmode, Mode.rank]

omit htext in
theorem yields_callOperator (h : d.ahead text = c :: rest) :
    d.Yields text (d.callOperator text) := by
  have hdrop : text.drop (d.offset + 1) = rest := drop_eq_of_ahead [c] h
  obtain ⟨others, hothers⟩ := longestOperator_prefix c rest
  rw [callOperator, look_eq h, hdrop]
  exact yields_advance hd _ (h.trans hothers.symm) (longestOperator_ne_nil c rest) rfl rfl
    (by simp [Lasting, complete, enter]) fun _ => rfl

theorem yields_callSuffixed : d.Yields text (d.callSuffixed text) := by
  obtain ⟨c, rest, h⟩ := exists_ahead hd.lt
  have hspace : ' ' ∈ c :: rest := List.mem_of_getLast? (getLast?_of_ahead [] htext h)
  obtain ⟨c', others, hdrop, hc'⟩ := exists_dropWhile (p := isSuffix) rfl hspace
  have hahead := ahead_takeWhile h hdrop
  have hat : (d.pass ((c :: rest).takeWhile isSuffix)).At text :=
    hd.pass hahead (List.cons_ne_nil _ _)
  have hle : d.offset ≤ (d.pass ((c :: rest).takeWhile isSuffix)).offset := Nat.le_add_right _ _
  rw [callSuffixed, advanceWhile_eq h hdrop hc']
  dsimp only
  split
  · exact yields_reject hat hle _
  rw [look_eq (ahead_pass hahead)]
  split
  · exact yields_reject hat hle _
  next hsuffix =>
    refine yields_emitInteger hat (.inl ?_)
    have hne : (c :: rest).takeWhile isSuffix ≠ [] := fun hnil => hsuffix (.inl (by rw [hnil]; rfl))
    exact Nat.lt_add_of_pos_right (List.length_pos_iff.mpr hne)

/-- An escape sequence ends in front of the last character. -/
theorem yields_escape (ht : t.offset = d.offset) (hpos : t.pos = d.pos)
    (hlasting : ∀ spelling, (t.emitHere .escape spelling).Lasting)
    (h : d.ahead text = '\\' :: rest) : d.Yields text (t.escape text) := by
  have hrest : rest ≠ [] := ne_nil_of_ahead [] htext h (by decide)
  obtain ⟨before, rfl⟩ : ∃ before, rest = before ++ [' '] := by
    have hlast := getLast?_of_ahead [] htext h
    rw [List.getLast?_cons_of_ne_nil hrest] at hlast
    exact List.getLast?_eq_some_iff.mp hlast
  have hdrop : text.drop (t.offset + 1) = before ++ [' '] := by
    rw [ht]
    exact drop_eq_of_ahead ['\\'] h
  rw [escape, hdrop, Quoted.escapeLength_append_break (.inr rfl)]
  split
  · exact yields_reject ⟨ht ▸ hd.lt, by rw [hpos, ht, hd.pos]⟩ (Nat.le_of_eq ht.symm) _
  next n hn =>
    have hle := Quoted.length_le_of_escapeLength hn
    have hlength : ('\\' :: before.take n).length = n + 1 := by
      simp [List.length_take, hle]
    have hsplit : d.ahead text = ('\\' :: before.take n) ++ (before.drop n ++ [' ']) := by
      rw [h, List.cons_append, ← List.append_assoc, List.take_append_drop]
    dsimp only
    rw [← hlength]
    exact yields_advance hd _ hsplit (List.cons_ne_nil _ _) ht hpos (hlasting _) (by simp)

omit hd htext in
/-- A quoted literal has an opening mark, so there are parts to put together. -/
theorem yields_repair (ht : t.At text) (hquoted : t.openIndex < t.lexemes.length)
    (hforward : d.offset < t.offset) (kind : LiteralKind) : d.Yields text (t.repair kind) := by
  obtain ⟨opening, others, hparts⟩ :
      ∃ opening others, t.lexemes.drop t.openIndex = opening :: others :=
    ⟨_, _, List.drop_eq_getElem_cons hquoted⟩
  rw [repair, hparts]
  exact yields_end ⟨ht.lt, ht.pos⟩ rfl (.inl hforward)

omit htext in
/-- The closing mark of a quoted literal. -/
theorem yields_close (hoffset : t.offset = d.offset) (hpos : t.pos = d.pos)
    (hquoted : t.openIndex < t.lexemes.length) (h : d.ahead text = c :: rest) (hrest : rest ≠ [])
    (kind : LiteralKind) : d.Yields text (advance text 1 t >>= fun d => d.repair kind) := by
  have hahead : t.ahead text = c :: rest := by rw [ahead, hoffset, ← ahead, h]
  have ht : t.At text := ⟨hoffset ▸ hd.lt, by rw [hpos, hoffset, hd.pos]⟩
  rw [advance_one_bind hahead]
  refine yields_repair (ht.pass (show _ = [c] ++ rest from hahead) hrest) hquoted ?_ kind
  rw [pass, hoffset]
  exact Nat.lt_succ_self _

theorem yields_callString (hmode : d.mode = .string) (hquoted : d.openIndex < d.lexemes.length)
    (h : d.ahead text = c :: rest) : d.Yields text (d.callString text) := by
  have hparts : d.flushRun.openIndex < d.flushRun.lexemes.length := by
    rw [flushRun]
    split
    · exact hquoted
    · simp only [emit, List.length_append]
      omega
  have hmore (kind : TokenKind) (spelling : String) :
      (d.flushRun.emitHere kind spelling).openIndex <
        (d.flushRun.emitHere kind spelling).lexemes.length := by
    simp only [emitHere, List.length_append]
    omega
  rw [callString, look_eq h, atSentinel_eq h]
  split
  · exact yields_reject hd (Nat.le_refl _) _
  next hend =>
  have hrest : rest ≠ [] := fun hnil => hend (.inr (by rw [hnil]; rfl))
  split
  · exact yields_close hd (t := d.flushRun.emitHere .quotes "\"") (flushRun_offset d)
      (flushRun_pos d) (hmore _ _) h hrest _
  split
  next hescape =>
    subst hescape
    exact yields_escape hd htext (flushRun_offset d) (flushRun_pos d)
      (fun _ => ⟨by simp [emitHere, hmode], by simp [emitHere, hmode], fun _ => hmore _ _⟩) h
  · have hrun : d.beginRun.offset = d.offset ∧ d.beginRun.pos = d.pos ∧
        (d.beginRun.collect c).Lasting := by
      rw [beginRun]
      split <;> exact ⟨rfl, rfl, by simp [collect, hmode], by simp [collect, hmode],
        fun _ => hquoted⟩
    exact yields_advance_one hd h hrun.1 hrun.2.1 hrun.2.2 fun hnil => absurd hnil hrest

theorem yields_callChar (hmode : d.mode = .char) (hquoted : d.openIndex < d.lexemes.length)
    (h : d.ahead text = c :: rest) : d.Yields text (d.callChar text) := by
  have hmore (kind : TokenKind) (spelling : String) :
      (d.emitHere kind spelling).openIndex < (d.emitHere kind spelling).lexemes.length := by
    simp only [emitHere, List.length_append]
    omega
  have hlasting (kind : TokenKind) (spelling : String) : (d.emitHere kind spelling).Lasting :=
    ⟨by simp [emitHere, hmode], by simp [emitHere, hmode], fun _ => hmore _ _⟩
  rw [callChar, look_eq h, atSentinel_eq h]
  split
  · exact yields_reject hd (Nat.le_refl _) _
  next hend =>
  have hrest : rest ≠ [] := fun hnil => hend (.inr (by rw [hnil]; rfl))
  split
  · split
    · exact yields_reject hd (Nat.le_refl _) _
    · exact yields_close hd (t := d.emitHere .quote "'") rfl rfl (hmore _ _) h hrest _
  split
  · exact yields_reject hd (Nat.le_refl _) _
  split
  next hescape =>
    subst hescape
    exact yields_escape hd htext rfl rfl (hlasting _) h
  · exact yields_advance_one hd h rfl rfl (hlasting _ _) fun hnil => absurd hnil hrest

end

end

/-- Every call gets on, in whatever state it is made. -/
theorem yields_call (hd : d.Placed text) (htext : text.getLast? = some ' ')
    (hlt : d.offset < text.length) : d.Yields text (d.call text) := by
  have hat := hd.at hlt
  obtain ⟨c, rest, h⟩ := exists_ahead hlt
  rw [call]
  cases hmode : d.mode with
  | default => exact yields_callDefault hat htext hmode h
  | identifier => exact yields_callIdentifier hat htext hmode h
  | point =>
    have hc := hd.point hmode
    simp only [h, startsWith, decide_eq_true_eq] at hc
    exact yields_callPoint hat hmode (hc ▸ h)
  | directive => exact yields_callDirective hat htext hmode h
  | slash =>
    have hc := hd.slash hmode
    simp only [h, startsWith, decide_eq_true_eq] at hc
    exact yields_callSlash hat htext (hc ▸ h) hmode
  | operator => exact yields_callOperator hat h
  | numeric => exact yields_callNumeric hat htext hmode h
  | binary => exact yields_callMarked hat htext rfl _ (.inl hmode) h
  | hex => exact yields_callMarked hat htext rfl _ (.inr hmode) h
  | suffixed => exact yields_callSuffixed hat htext
  | floating => exact yields_callFloating hat htext hmode h
  | string => exact yields_callString hat htext hmode (hd.quoted (.inl hmode)) h
  | char => exact yields_callChar hat htext hmode (hd.quoted (.inr hmode)) h

end Driver

end MiniC
