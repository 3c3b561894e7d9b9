import MiniC.Proofs.Lexing.Driver.Numbers
import MiniC.Proofs.Lexing.Driver.Quoted

set_option autoImplicit false

/-! # Pieces, read by the driver

From the state between two constructs the driver comes to the end of the next piece and back to that
state, and adds the lexeme of the piece if it is one. It reads the pieces that the rules for lexemes
find, and stops with their errors. The space behind the text takes part in no piece. -/

namespace MiniC

open CharClass

namespace Driver

variable {text cs front rest tail : List Char} {c : Char} {base d t : Driver} {ls : List Lexeme}
  {piece : Option Lexeme}

/-- Whether the driver comes from the front of a piece to what the rules say of it. -/
def Reads (text : List Char) (c : Char) (rest : List Char) (d : Driver) :
    Except LexicalError (Option Lexeme × Nat) → Prop
  | .ok (piece, n) => n ≤ rest.length ∧ ∃ ls t, d.Comes text (.ok t) ∧
      Behind d (c :: rest.take n) ls t ∧ ls.map retag = piece.toList
  | .error e => d.Comes text (.error (.rejected e))

theorem reads_of_behind (hfront : front <+: rest) (hcomes : d.Comes text (.ok t))
    (ht : Behind d (c :: front) ls t) (hpiece : ls.map retag = piece.toList) :
    Reads text c rest d (.ok (piece, front.length)) := by
  refine ⟨hfront.length_le, ls, t, hcomes, ?_, hpiece⟩
  rwa [← List.prefix_iff_eq_take.mp hfront]

/-- What stands in front of a character that there is stands in front of the last one. -/
theorem take_of_append (whole : List Char) {others : List Char} {c' : Char}
    (h : whole ++ [' '] = cs ++ c' :: others) :
    cs.length ≤ whole.length ∧ whole.take cs.length = cs := by
  have hlength := congrArg List.length h
  simp only [List.length_append, List.length_cons, List.length_nil] at hlength
  have hle : cs.length ≤ whole.length := by omega
  refine ⟨hle, ?_⟩
  have happend : (whole ++ [' ']).take cs.length = whole.take cs.length :=
    List.take_append_of_le_length hle
  rw [← happend, h, List.take_left]

theorem reads_of_ahead {c' : Char} {others : List Char} (h : d.ahead text = c :: (rest ++ [' ']))
    (hcs : cs ≠ []) (hsplit : d.ahead text = cs ++ c' :: others) (hcomes : d.Comes text (.ok t))
    (ht : Behind d cs ls t) (hpiece : ls.map retag = piece.toList) :
    Reads text c rest d (.ok (piece, cs.length - 1)) := by
  obtain ⟨hle, htake⟩ := take_of_append (c :: rest) (h.symm.trans hsplit)
  obtain ⟨c'', front, rfl⟩ := List.exists_cons_of_ne_nil hcs
  rw [List.length_cons] at hle htake ⊢
  refine ⟨Nat.le_of_succ_le_succ hle, ls, t, hcomes, ?_, hpiece⟩
  rwa [Nat.add_sub_cancel, ← List.take_succ_cons, htake]

theorem head?_eq_some_iff {b : Char} (hb : b ≠ ' ') :
    (rest ++ [' ']).head? = some b ↔ startsWith (· = b) rest = true := by
  cases rest with
  | nil => simpa [startsWith] using hb.symm
  | cons c rest => simp [startsWith]

theorem any_head? {p : Char → Bool} (hp : p ' ' = false) :
    (rest ++ [' ']).head?.any p = startsWith p rest := by
  cases rest with
  | nil => simpa [startsWith] using hp
  | cons c rest => rfl

theorem call_point (ht : t.mode = .point) : t.call text = t.callPoint text := by
  rw [call, ht]

theorem call_slash (ht : t.mode = .slash) : t.call text = t.callSlash text := by
  rw [call, ht]

/-! ## Quoted literals -/

theorem reads_quoted (front : List Char) {mode : Mode} {kind : LiteralKind}
    {tokenKind : TokenKind} {spelling : String} {result : Except LexicalError (List Part × Nat)}
    (hcall : d.call text =
      advance text (c :: front).length (d.begin.openQuoted mode tokenKind spelling))
    (h : d.ahead text = c :: (front ++ tail ++ [' ']))
    (hcloses : ∀ u : Driver, Quoting d.lexemes mode [⟨tokenKind, spelling, d.pos⟩] u →
      u.ahead text = tail ++ [' '] → u.pos = d.pos.after (c :: front) →
      Closes text d.lexemes kind ⟨tokenKind, spelling, d.pos⟩ [] u result) :
    Reads text c (front ++ tail) d (do
      let (lexeme, n) ← readQuoted kind ⟨tokenKind, spelling, d.pos⟩ result
      return (some lexeme, n + front.length)) := by
  have hmark : d.ahead text = c :: front ++ (tail ++ [' ']) := by
    rw [h, List.append_assoc, List.cons_append]
  have hcomes := comes_call (lt_of_ahead h)
  rw [hcall, advance_eq (d := d.begin.openQuoted mode tokenKind spelling) hmark] at hcomes
  have hquoting : Quoting d.lexemes mode [⟨tokenKind, spelling, d.pos⟩]
      ((d.begin.openQuoted mode tokenKind spelling).pass (c :: front)) := ⟨rfl, rfl, rfl, rfl⟩
  have hahead := ahead_pass (d := d.begin.openQuoted mode tokenKind spelling) hmark
  have hresult := hcloses _ hquoting hahead rfl
  cases result with
  | error e => exact hcomes.trans hresult
  | ok closed =>
    obtain ⟨others, n⟩ := closed
    obtain ⟨cs, c', more, t, hmore, hlength, ht, hbehind⟩ := hresult
    have hsplit : d.ahead text = (c :: front ++ cs) ++ c' :: more := by
      rw [hmark, ← hahead, hmore, List.append_assoc]
    have hcount : n + front.length = (c :: front ++ cs).length - 1 := by
      rw [List.length_append, List.length_cons, hlength]
      omega
    show Reads text c (front ++ tail) d
      (.ok (some (quotedLexeme kind ⟨tokenKind, spelling, d.pos⟩ others), n + front.length))
    rw [hcount]
    exact reads_of_ahead h (List.append_ne_nil_of_left_ne_nil (List.cons_ne_nil c front) cs) hsplit
      (hcomes.trans ht) (hbehind.of_part rfl rfl) rfl

/-! ## Numbers -/

/-- A lexeme takes up something, since a state between two constructs is not followed by itself at
the same place. -/
theorem ne_nil_of_behind (htext : text.getLast? = some ' ') (hd : d.Placed text)
    (hmode : d.mode = .default) (hlt : d.offset < text.length) (hcomes : d.Comes text (.ok t))
    (ht : Behind d cs ls t) (hls : ls ≠ []) : cs ≠ [] := by
  rintro rfl
  obtain ⟨n, hn⟩ := hcomes
  have hyields := yieldsAfter_calls htext n hd
  rw [hn] at hyields
  obtain ⟨-, -, hrank⟩ := hyields
  have hlower := hrank hlt ht.offset
  rw [rank, rank, ht.mode, hmode] at hlower
  -- a state of the same rank at the same place is the state itself, which has no new lexemes
  obtain rfl : n = 0 := by
    dsimp only [Mode.rank] at hlower
    omega
  cases hn
  have hlexemes := ht.lexemes
  simp [hls] at hlexemes

theorem reads_number (base : Driver) (htext : text.getLast? = some ' ') (hd : d.Placed text)
    (hmode : d.mode = .default) (h : d.ahead text = c :: (rest ++ [' ']))
    (hbase : Amid text d.begin [] (c :: (rest ++ [' '])) base) (hcomes : d.Comes text (.ok t))
    (hfinds : Finds text base t (Number.read (c :: (rest ++ [' '])))) :
    Reads text c rest d (numberPiece d.pos (c :: rest)) := by
  have hread : Number.read (c :: (rest ++ [' '])) = Number.read (c :: rest) :=
    Number.read_append_break (.inr rfl) (c :: rest) []
  rw [hread] at hfinds
  have hahead : base.ahead text = c :: (rest ++ [' ']) := hbase.ahead_eq
  have hoffset : base.offset = d.offset := hbase.offset
  have hpos : base.pos = d.pos := hbase.pos
  rw [numberPiece]
  -- the space behind the text ends the number, and is no part of it
  cases hresult : Number.read (c :: rest) with
  | error fault =>
    rw [hresult] at hfinds
    obtain ⟨cs, c', more, hsplit, hlength, hrejected⟩ := hfinds
    obtain ⟨-, htake⟩ := take_of_append (c :: rest) (hahead.symm.trans hsplit)
    dsimp only
    rw [← hlength, htake, ← hpos]
    exact hcomes.trans hrejected
  | ok n =>
    rw [hresult] at hfinds
    obtain ⟨cs, c', more, u, hsplit, hlength, hu, hbehind⟩ := hfinds
    have hwhole : Behind d cs [⟨.literal n.kind, String.ofList n.text, d.pos, []⟩] u := by
      refine ⟨hbehind.mode, hoffset ▸ hbehind.offset, hpos ▸ hbehind.pos, ?_⟩
      rw [hbehind.lexemes, hbase.lexemes, hbase.start]
      rfl
    have hcs := ne_nil_of_behind htext hd hmode (lt_of_ahead h) (hcomes.trans hu) hwhole
      (List.cons_ne_nil _ _)
    dsimp only
    rw [← hlength]
    exact reads_of_ahead h hcs (h.trans (hahead.symm.trans hsplit)) (hcomes.trans hu) hwhole rfl

/-- A number that begins with a point. -/
theorem reads_pointNumber (htext : text.getLast? = some ' ') (hd : d.Placed text)
    (hmode : d.mode = .default) (h : d.ahead text = '.' :: (rest ++ [' ']))
    (hcall : d.call text = .ok (d.begin.enter .point)) (hdigit : startsWith isDigit rest = true) :
    Reads text '.' rest d (numberPiece d.pos ('.' :: rest)) := by
  have hspace : ' ' ∈ '.' :: (rest ++ [' ']) := by simp
  have hpoint : d.Comes text (.ok (d.begin.enter .point)) := hcall ▸ comes_call (lt_of_ahead h)
  have hahead : (d.begin.enter .point).ahead text = '.' :: (rest ++ [' ']) := h
  have hturn := comes_call (lt_of_ahead hahead)
  rw [call_point rfl, callPoint, peek_eq hahead, any_head? rfl, if_pos hdigit] at hturn
  refine reads_number d.begin htext hd hmode h (amid_self h) (hpoint.trans hturn) ?_
  refine finds_floating [] hspace ?_ ?_ (.inl rfl)
  · exact ⟨h, rfl, rfl, rfl, rfl⟩
  · exact ⟨rfl, rfl, rfl, rfl, by simp, by simp, by simp⟩

/-- A number that begins with a digit. -/
theorem reads_digitNumber (htext : text.getLast? = some ' ') (hd : d.Placed text)
    (hmode : d.mode = .default) (h : d.ahead text = c :: (rest ++ [' ']))
    (hcall : d.call text = .ok d.begin.toNumber) :
    Reads text c rest d (numberPiece d.pos (c :: rest)) := by
  have hspace : ' ' ∈ c :: (rest ++ [' ']) := by simp
  have hturn : d.Comes text (.ok d.begin.toNumber) := hcall ▸ comes_call (lt_of_ahead h)
  refine reads_number d.begin.toNumber htext hd hmode h ?_ hturn ?_
  · exact ⟨h, rfl, rfl, rfl, rfl⟩
  · exact finds_read hspace h rfl rfl rfl rfl rfl

/-! ## Names and directives -/

/-- A lexeme of which the characters are collected up to the first one that is not in a class. -/
theorem reads_collected {mode : Mode} (kind : TokenKind) (p : Char → Bool)
    (spell : List Char → List Char) (h : d.ahead text = c :: (rest ++ [' ']))
    (hcall : d.call text = .ok (d.begin.enter mode)) (hc : p c = true)
    (hstep : ∀ (t : Driver) c' more, t.mode = mode → t.ahead text = c' :: more → more ≠ [] →
      p c' = true → t.call text = advance text 1 (t.collect c'))
    (hend : ∀ (t : Driver) c' more, t.mode = mode → t.ahead text = c' :: more →
      p c' = false ∨ c' = ' ' ∧ more = [] →
      t.call text = .ok (t.complete kind (spell t.lexeme)))
    (hpiece : [⟨kind, String.ofList (spell (c :: rest.takeWhile p)), d.pos, []⟩].map retag =
      piece.toList) :
    Reads text c rest d (.ok (piece, (rest.takeWhile p).length)) := by
  obtain ⟨c', more, hmore, hc'⟩ := exists_classEnd p rest
  have hchars : ∀ c' ∈ c :: rest.takeWhile p, p c' = true :=
    List.forall_mem_cons.mpr ⟨hc, forall_of_takeWhile rest⟩
  have hfront := List.takeWhile_prefix p (l := rest)
  have hrest : rest ++ [' '] = rest.takeWhile p ++ c' :: more := by
    rw [← hmore, ← List.append_assoc, List.takeWhile_append_dropWhile]
  generalize rest.takeWhile p = front at *
  have hturn : d.Comes text (.ok (d.begin.enter mode)) := hcall ▸ comes_call (lt_of_ahead h)
  have hsplit : (d.begin.enter mode).ahead text = (c :: front) ++ c' :: more := by
    rw [List.cons_append, ← hrest]
    exact h
  have hcollect : (d.begin.enter mode).Comes text
      (.ok ((d.begin.enter mode).collectAll id (c :: front))) :=
    comes_collect id (P := fun t => t.mode = mode)
      (fun t c' more ht hahead hmore hc => ⟨hstep t c' more ht hahead hmore hc, ht⟩) rfl hsplit
      (List.cons_ne_nil c' more) hchars
  have hbegun : Amid text d.begin [] (c :: front ++ c' :: more) (d.begin.enter mode) :=
    ⟨hsplit, rfl, rfl, rfl, rfl⟩
  have hamid := hbegun.collectAll id
  have hspelling : ((d.begin.enter mode).collectAll id (c :: front)).lexeme = c :: front := by
    simp [collectAll, pass, enter, begin]
  have hcomplete := hamid.comes_call
  rw [hend _ c' more rfl hamid.ahead_eq hc', hspelling] at hcomplete
  exact reads_of_behind hfront (hturn.trans (hcollect.trans hcomplete))
    (hamid.complete _ _).of_begin hpiece

theorem reads_name (h : d.ahead text = c :: (rest ++ [' ']))
    (hcall : d.call text = .ok (d.begin.enter .identifier)) (hc : isNameStart c = true) :
    Reads text c rest d (wordPiece d.pos (wordKind (String.ofList (c :: rest.takeWhile isName)))
      (c :: rest.takeWhile isName)) := by
  refine reads_collected .identifier isName id h hcall
    (by simp [isName, hc]) ?_ ?_ ?_
  · intro t c' more ht hahead _ hc'
    rw [call, ht]
    dsimp only
    rw [callIdentifier, look_eq hahead, if_pos hc']
  · intro t c' more ht hahead hc'
    have hother : isName c' = false := by
      rcases hc' with hother | ⟨rfl, -⟩
      · exact hother
      · rfl
    rw [call, ht]
    dsimp only
    rw [callIdentifier, look_eq hahead, if_neg (by simp [hother])]
    rfl
  · simp [retag]

theorem reads_directive (h : d.ahead text = '#' :: (rest ++ [' ']))
    (hcall : d.call text = .ok (d.begin.enter .directive)) :
    Reads text '#' rest d (.ok
      (some ⟨.directive, String.ofList (Text.trimEnd ('#' :: firstLine rest)), d.pos, []⟩,
        (firstLine rest).length)) := by
  refine reads_collected .directive (· ≠ '\n') Text.trimEnd h hcall rfl
    ?_ ?_ rfl
  · intro t c' more ht hahead hmore hc'
    rw [call, ht]
    dsimp only
    rw [callDirective, look_eq hahead, atSentinel_eq hahead, if_pos]
    exact ⟨by simpa using hc', by simpa using hmore⟩
  · intro t c' more ht hahead hc'
    rw [call, ht]
    dsimp only
    rw [callDirective, look_eq hahead, atSentinel_eq hahead, if_neg]
    rintro ⟨hline, hmore⟩
    rcases hc' with hc' | ⟨-, rfl⟩
    · exact hline (by simpa using hc')
    · cases hmore

/-! ## Spaces, comments and operators -/

theorem comes_turn (h : d.ahead text = c :: rest) (hcall : d.call text = .ok t)
    (ht : t.offset = d.offset) : d.Comes text (t.call text) := by
  have hlt := lt_of_ahead h
  have hturn : d.Comes text (.ok t) := hcall ▸ comes_call hlt
  exact hturn.trans (comes_call (ht ▸ hlt))

theorem reads_passed {u : Driver} (hfront : front <+: rest)
    (hcomes : d.Comes text (.ok (u.pass (c :: front)))) (hu : Behind d [] ls u)
    (hpiece : ls.map retag = piece.toList) : Reads text c rest d (.ok (piece, front.length)) :=
  reads_of_behind hfront hcomes (hu.pass (c :: front)) hpiece

theorem reads_space (hmode : d.mode = .default) (h : d.ahead text = c :: (rest ++ [' ']))
    (hcall : d.call text = advance text 1 d) : Reads text c rest d (.ok (none, 0)) := by
  rw [advance_one h] at hcall
  have hcomes : d.Comes text (.ok (d.pass [c])) := hcall ▸ comes_call (lt_of_ahead h)
  exact reads_passed (List.nil_prefix) hcomes ⟨hmode, rfl, rfl, (List.append_nil _).symm⟩ rfl

theorem behind_complete (kind : TokenKind) (spelling : List Char) (mode : Mode) :
    Behind d [] [⟨kind, String.ofList spelling, d.pos, []⟩]
      ((d.begin.enter mode).complete kind spelling) :=
  ⟨rfl, rfl, rfl, rfl⟩

theorem reads_separator (h : d.ahead text = c :: (rest ++ [' ']))
    (hcall : d.call text = advance text 1 (d.begin.complete .punctuator [c])) :
    Reads text c rest d (wordPiece d.pos .punctuator [c]) := by
  rw [advance_one (d := d.begin.complete .punctuator [c]) h] at hcall
  have hcomes : d.Comes text (.ok ((d.begin.complete .punctuator [c]).pass [c])) :=
    hcall ▸ comes_call (lt_of_ahead h)
  exact reads_passed (List.nil_prefix) hcomes (behind_complete .punctuator [c] d.mode) rfl

/-- A point in front of a name. -/
theorem reads_point (h : d.ahead text = '.' :: (rest ++ [' ']))
    (hcall : d.call text = .ok (d.begin.enter .point)) (hdigit : startsWith isDigit rest ≠ true)
    (hname : startsWith isNameStart rest = true) :
    Reads text '.' rest d (wordPiece d.pos .punctuator ['.']) := by
  have hahead : (d.begin.enter .point).ahead text = '.' :: (rest ++ [' ']) := h
  have hcomes := comes_turn h hcall rfl
  rw [call_point rfl, callPoint, peek_eq hahead, any_head? rfl, if_neg hdigit, any_head? rfl,
    if_pos hname, advance_one (d := (d.begin.enter .point).complete .punctuator ['.']) h] at hcomes
  exact reads_passed (List.nil_prefix) hcomes (behind_complete .punctuator ['.'] .point) rfl

theorem reads_invalidPoint (h : d.ahead text = '.' :: (rest ++ [' ']))
    (hcall : d.call text = .ok (d.begin.enter .point)) (hdigit : startsWith isDigit rest ≠ true)
    (hname : startsWith isNameStart rest ≠ true) :
    Reads text '.' rest d (.error ⟨.invalidPoint, d.pos⟩) := by
  have hahead : (d.begin.enter .point).ahead text = '.' :: (rest ++ [' ']) := h
  have hcomes := comes_turn h hcall rfl
  rw [call_point rfl, callPoint, peek_eq hahead, any_head? rfl, if_neg hdigit, any_head? rfl,
    if_neg hname] at hcomes
  exact hcomes

theorem reads_operator (h : d.ahead text = c :: (rest ++ [' ']))
    (hturn : d.Comes text (.ok (d.begin.enter .operator))) :
    Reads text c rest d (wordPiece d.pos .punctuator (longestOperator c rest)) := by
  have hahead : (d.begin.enter .operator).ahead text = c :: (rest ++ [' ']) := h
  have hdrop : text.drop (d.offset + 1) = rest ++ [' '] := drop_eq_of_ahead [c] h
  have hcall : (d.begin.enter .operator).call text =
      (d.begin.enter .operator).passOperator text (longestOperator c rest) := by
    rw [call, show (d.begin.enter .operator).mode = .operator from rfl]
    dsimp only
    rw [callOperator, look_eq hahead, show (d.begin.enter .operator).offset = d.offset from rfl,
      hdrop, longestOperator_append_break (.inr rfl)]
  have hcomes := hturn.trans (comes_call (lt_of_ahead hahead))
  rw [hcall, passOperator] at hcomes
  -- the operator is the front of the text
  obtain ⟨c', front, hop⟩ := List.exists_cons_of_ne_nil (longestOperator_ne_nil c rest)
  have hprefix := longestOperator_prefix c rest
  rw [hop] at hprefix hcomes ⊢
  obtain ⟨rfl, tail, rfl⟩ := List.cons_prefix_cons.mp hprefix
  rw [List.append_assoc, ← List.cons_append] at h
  rw [advance_eq (d := (d.begin.enter .operator).complete .punctuator (c' :: front)) h] at hcomes
  exact reads_passed (List.prefix_append front tail) hcomes
    (behind_complete .punctuator (c' :: front) .operator) rfl

theorem behind_gap (mode : Mode) : Behind d [] [] ((d.begin.enter mode).enter .default) :=
  ⟨rfl, rfl, rfl, (List.append_nil _).symm⟩

theorem reads_lineComment (h : d.ahead text = '/' :: (rest ++ [' ']))
    (hcall : d.call text = .ok (d.begin.enter .slash)) (hslash : startsWith (· = '/') rest = true) :
    Reads text '/' rest d (.ok (none, (firstLine rest).length)) := by
  have hahead : (d.begin.enter .slash).ahead text = '/' :: (rest ++ [' ']) := h
  have hcomes := comes_turn h hcall rfl
  obtain ⟨c, more, hline, hc⟩ := exists_lineEnd rest
  rw [call_slash rfl, callSlash, peek_eq hahead,
    if_pos ((head?_eq_some_iff (by decide)).mpr hslash),
    advanceLine_eq (d := d.begin.enter .slash) ('/' :: rest) (hahead.trans ?_) hc] at hcomes
  · exact reads_passed (u := (d.begin.enter .slash).enter .default) (List.takeWhile_prefix _) hcomes
      (behind_gap .slash) rfl
  · rw [hline]
    rfl

theorem reads_blockComment (h : d.ahead text = '/' :: (rest ++ [' ']))
    (hcall : d.call text = .ok (d.begin.enter .slash)) (hstar : startsWith (· = '*') rest = true) :
    Reads text '/' rest d (match commentLength (rest.drop 1) with
      | none => .error ⟨.unclosedComment, d.pos⟩
      | some n => .ok (none, n + 1)) := by
  obtain ⟨more, rfl⟩ := eq_cons_of_startsWith_eq hstar
  have hahead : (d.begin.enter .slash).ahead text = '/' :: '*' :: (more ++ [' ']) := h
  have hdrop : text.drop ((d.begin.enter .slash).offset + 2) = more ++ [' '] :=
    drop_eq_of_ahead ['/', '*'] hahead
  have hcomes := comes_turn h hcall rfl
  rw [call_slash rfl, callSlash, peek_eq hahead, List.head?_cons, if_neg (by simp), if_pos rfl,
    hdrop, commentLength_append_singleton (by decide)] at hcomes
  rw [List.drop_succ_cons, List.drop_zero]
  cases hlength : commentLength more with
  | none =>
    rw [hlength] at hcomes
    exact hcomes
  | some n =>
    rw [hlength] at hcomes
    have hcount : (more.take n).length = n :=
      List.length_take_of_le (length_le_of_commentLength hlength)
    have hmark : (d.begin.enter .slash).ahead text =
        ('/' :: '*' :: more.take n) ++ (more.drop n ++ [' ']) := by
      rw [hahead, List.cons_append, List.cons_append, ← List.append_assoc, List.take_append_drop]
    have hlast := advance_eq (d := (d.begin.enter .slash).enter .default) hmark
    simp only [List.length_cons, hcount] at hlast
    dsimp only at hcomes
    rw [hlast] at hcomes
    have hfront : '*' :: more.take n <+: '*' :: more :=
      List.cons_prefix_cons.mpr ⟨rfl, List.take_prefix n more⟩
    show Reads text '/' ('*' :: more) d (.ok (none, n + 1))
    rw [← hcount, ← List.length_cons]
    exact reads_passed hfront hcomes (behind_gap .slash) rfl

theorem reads_slash (h : d.ahead text = '/' :: (rest ++ [' ']))
    (hcall : d.call text = .ok (d.begin.enter .slash)) :
    Reads text '/' rest d
      (if startsWith (· = '/') rest then .ok (none, (firstLine rest).length)
      else if startsWith (· = '*') rest then
        match commentLength (rest.drop 1) with
        | none => .error ⟨.unclosedComment, d.pos⟩
        | some n => .ok (none, n + 1)
      else wordPiece d.pos .punctuator (longestOperator '/' rest)) := by
  by_cases hslash : startsWith (· = '/') rest = true
  · rw [if_pos hslash]
    exact reads_lineComment h hcall hslash
  rw [if_neg hslash]
  by_cases hstar : startsWith (· = '*') rest = true
  · rw [if_pos hstar]
    exact reads_blockComment h hcall hstar
  rw [if_neg hstar]
  have hahead : (d.begin.enter .slash).ahead text = '/' :: (rest ++ [' ']) := h
  have hturn := comes_turn h hcall rfl
  rw [call_slash rfl, callSlash, peek_eq hahead,
    if_neg ((head?_eq_some_iff (by decide)).not.mpr hslash),
    if_neg ((head?_eq_some_iff (by decide)).not.mpr hstar)] at hturn
  exact reads_operator h hturn

/-! ## All pieces -/

theorem reads_readPiece (htext : text.getLast? = some ' ') (hd : d.Placed text)
    (hmode : d.mode = .default) (h : d.ahead text = c :: (rest ++ [' '])) :
    Reads text c rest d (readPiece d.pos c rest) := by
  have hcall : d.call text = d.callDefault text := by rw [call, hmode]
  rw [callDefault, look_eq h, peek_eq h] at hcall
  unfold readPiece
  by_cases hspace : isSpace c = true
  · rw [if_pos hspace] at hcall ⊢
    exact reads_space hmode h hcall
  rw [if_neg hspace] at hcall ⊢
  by_cases hwide : c = 'L' ∧ (rest ++ [' ']).head? = some '"'
  · obtain ⟨rfl, hquote⟩ := hwide
    have hstarts := (head?_eq_some_iff (by decide)).mp hquote
    obtain ⟨tail, rfl⟩ := eq_cons_of_startsWith_eq hstarts
    rw [if_pos ⟨rfl, hquote⟩] at hcall
    rw [if_pos (by simp [startsWith])]
    exact reads_quoted ['"'] hcall h fun u hu hahead hpos => closes_string hu hahead hpos
  rw [if_neg hwide] at hcall
  rw [head?_eq_some_iff (by decide)] at hwide
  rw [if_neg (by simpa using hwide)]
  by_cases hquotes : c = '"'
  · subst hquotes
    rw [if_pos rfl] at hcall ⊢
    exact reads_quoted [] hcall h fun u hu hahead hpos => closes_string hu hahead hpos
  rw [if_neg hquotes] at hcall ⊢
  by_cases hquote : c = '\''
  · subst hquote
    rw [if_pos rfl] at hcall ⊢
    exact reads_quoted [] hcall h fun u hu hahead hpos =>
      have hchar := closes_char hu hahead
      by rwa [hpos] at hchar
  rw [if_neg hquote] at hcall ⊢
  by_cases hdigit : isDigit c = true
  · rw [if_pos hdigit] at hcall ⊢
    exact reads_digitNumber htext hd hmode h hcall
  rw [if_neg hdigit] at hcall ⊢
  by_cases hpoint : c = '.'
  · subst hpoint
    rw [if_pos rfl] at hcall ⊢
    by_cases hfraction : startsWith isDigit rest = true
    · rw [if_pos hfraction]
      exact reads_pointNumber htext hd hmode h hcall hfraction
    rw [if_neg hfraction]
    by_cases hname : startsWith isNameStart rest = true
    · rw [if_pos hname]
      exact reads_point h hcall hfraction hname
    · rw [if_neg hname]
      exact reads_invalidPoint h hcall hfraction hname
  rw [if_neg hpoint] at hcall ⊢
  by_cases hname : isNameStart c = true
  · rw [if_pos hname] at hcall ⊢
    exact reads_name h hcall hname
  rw [if_neg hname] at hcall ⊢
  by_cases hdirective : c = '#'
  · subst hdirective
    rw [if_pos rfl] at hcall ⊢
    exact reads_directive h hcall
  rw [if_neg hdirective] at hcall ⊢
  by_cases hslash : c = '/'
  · subst hslash
    rw [if_pos rfl] at hcall
    exact reads_slash h hcall
  rw [if_neg hslash] at hcall
  rw [if_neg (by simp [hslash]), if_neg (by simp [hslash])]
  by_cases hseparator : separators.contains c = true
  · rw [if_pos hseparator] at hcall ⊢
    exact reads_separator h hcall
  rw [if_neg hseparator] at hcall ⊢
  by_cases hoperator : operators1.contains c = true
  · rw [if_pos hoperator] at hcall ⊢
    exact reads_operator h (hcall ▸ comes_call (lt_of_ahead h))
  · rw [if_neg hoperator] at hcall ⊢
    exact (hcall ▸ comes_call (lt_of_ahead h) : d.Comes text (d.reject (.unknownSymbol c)))

end Driver

end MiniC
