import MiniC.Proofs.Lexing.Driver.Loop

set_option autoImplicit false

/-! # In the middle of a construct

Between the call that begins a construct and the one that ends it, the driver passes the characters
of the construct and remembers what it needs of them. Where it comes to is told by what was passed
since the beginning and by what lies ahead. -/

namespace MiniC

open CharClass

namespace Driver

variable {text cs cs' rest : List Char} {c : Char} {base d t : Driver}

/-- Whether the driver is in the middle of a construct that it began in the state `base`: it passed
`cs` and has `rest` ahead. -/
structure Amid (text : List Char) (base : Driver) (cs rest : List Char) (d : Driver) : Prop where
  text_eq : base.ahead text = cs ++ rest
  offset : d.offset = base.offset + cs.length
  pos : d.pos = base.pos.after cs
  lexemes : d.lexemes = base.lexemes
  start : d.start = base.start

/-- Whether the driver is behind a construct that it began in the state `base`: it passed `cs` and
added the lexemes `ls`. -/
structure Behind (base : Driver) (cs : List Char) (ls : List Lexeme) (d : Driver) : Prop where
  mode : d.mode = .default
  offset : d.offset = base.offset + cs.length
  pos : d.pos = base.pos.after cs
  lexemes : d.lexemes = base.lexemes ++ ls

theorem amid_self (h : base.ahead text = rest) : Amid text base [] rest base :=
  ⟨h, rfl, rfl, rfl, rfl⟩

theorem Amid.ahead_eq (h : Amid text base cs rest d) : d.ahead text = rest := by
  have hahead : d.ahead text = (base.pass cs).ahead text := by rw [ahead, h.offset]; rfl
  rw [hahead, ahead_pass h.text_eq]

theorem Amid.pass (cs' : List Char) (h : Amid text base cs (cs' ++ rest) d) :
    Amid text base (cs ++ cs') rest (d.pass cs') where
  text_eq := by rw [h.text_eq, List.append_assoc]
  offset := by rw [List.length_append, ← Nat.add_assoc, ← h.offset]; rfl
  pos := by rw [Position.after_append, ← h.pos]; rfl
  lexemes := h.lexemes
  start := h.start

theorem Amid.comes_call (h : Amid text base cs (c :: rest) d) : d.Comes text (d.call text) := by
  have hlength := length_of_ahead h.ahead_eq
  exact Driver.comes_call (by omega)

/-- The end of a construct that is one lexeme. -/
theorem Amid.complete (h : Amid text base cs rest d) (kind : TokenKind) (spelling : List Char) :
    Behind base cs [⟨kind, String.ofList spelling, base.start, []⟩] (d.complete kind spelling) where
  mode := rfl
  offset := h.offset
  pos := h.pos
  lexemes := by rw [Driver.complete, emit, ← h.lexemes, ← h.start]; rfl

theorem Behind.pass {ls : List Lexeme} (h : Behind base [] ls d) (cs : List Char) :
    Behind base cs ls (d.pass cs) where
  mode := h.mode
  offset := by rw [Driver.pass, h.offset]; rfl
  pos := by rw [Driver.pass, h.pos]; rfl
  lexemes := h.lexemes

theorem Behind.of_begin {ls : List Lexeme} (h : Behind base.begin cs ls d) : Behind base cs ls d :=
  ⟨h.mode, h.offset, h.pos, h.lexemes⟩

/-- A construct of which a part was passed in front of the state `t`. -/
theorem Behind.of_part {u : Driver} {ls : List Lexeme}
    (h : Behind { t with lexemes := base.lexemes } cs' ls u)
    (hoffset : t.offset = base.offset + cs.length) (hpos : t.pos = base.pos.after cs) :
    Behind base (cs ++ cs') ls u where
  mode := h.mode
  offset := by
    rw [h.offset, List.length_append, ← Nat.add_assoc, ← hoffset]
  pos := by
    rw [h.pos, Position.after_append, ← hpos]
  lexemes := h.lexemes

/-! ## Characters that are collected -/

/-- A state that lasts as long as characters of a class follow. -/
theorem comes_while (grow : Driver → Char → Driver) {p : Char → Bool} {P : Driver → Prop}
    (hstep : ∀ d c rest, P d → d.ahead text = c :: rest → rest ≠ [] → p c = true →
      d.call text = .ok ((grow d c).pass [c]) ∧ P ((grow d c).pass [c]))
    (hgrow : ∀ d c, (grow d c).offset = d.offset) (hd : P d) (h : d.ahead text = cs ++ rest)
    (hrest : rest ≠ []) (hcs : ∀ c ∈ cs, p c = true) :
    d.Comes text (.ok (cs.foldl (fun d c => (grow d c).pass [c]) d)) := by
  induction cs generalizing d with
  | nil => exact .refl d
  | cons c cs ih =>
    rw [List.cons_append] at h
    have hmore : cs ++ rest ≠ [] := by simp [hrest]
    obtain ⟨hcall, hP⟩ := hstep d c (cs ++ rest) hd h hmore (hcs c List.mem_cons_self)
    have hahead : ((grow d c).pass [c]).ahead text = cs ++ rest := by
      refine ahead_pass ?_
      rw [ahead, hgrow, ← ahead, h, List.singleton_append]
    have hfirst : d.Comes text (.ok ((grow d c).pass [c])) :=
      hcall ▸ Driver.comes_call (length_of_ahead h ▸ by omega)
    exact hfirst.trans (ih hP hahead fun c' hc' => hcs c' (List.mem_cons_of_mem _ hc'))

/-- The driver behind some characters that were all added to the construct. -/
def collectAll (f : Char → Char) (cs : List Char) (d : Driver) : Driver :=
  pass cs { d with lexeme := d.lexeme ++ cs.map f }

theorem foldl_collect (f : Char → Char) (cs : List Char) (d : Driver) :
    cs.foldl (fun d c => (d.collect (f c)).pass [c]) d = d.collectAll f cs := by
  induction cs generalizing d with
  | nil => simp [collectAll, pass]
  | cons c cs ih =>
    rw [List.foldl_cons, ih]
    simp [collectAll, pass, collect, Nat.add_comm, Nat.add_left_comm]

/-- The characters of a class are collected one by one. -/
theorem comes_collect (f : Char → Char) {p : Char → Bool} {P : Driver → Prop}
    (hstep : ∀ d c rest, P d → d.ahead text = c :: rest → rest ≠ [] → p c = true →
      d.call text = advance text 1 (d.collect (f c)) ∧ P ((d.collect (f c)).pass [c]))
    (hd : P d) (h : d.ahead text = cs ++ rest) (hrest : rest ≠ []) (hcs : ∀ c ∈ cs, p c = true) :
    d.Comes text (.ok (d.collectAll f cs)) := by
  rw [← foldl_collect]
  refine comes_while (fun d c => d.collect (f c)) (P := P)
    (fun d c rest hP hahead hrest hc => ?_) (fun _ _ => rfl) hd h hrest hcs
  obtain ⟨hcall, hnext⟩ := hstep d c rest hP hahead hrest hc
  exact ⟨hcall.trans (advance_one hahead), hnext⟩

theorem Amid.collectAll (h : Amid text base cs (cs' ++ rest) d) (f : Char → Char) :
    Amid text base (cs ++ cs') rest (d.collectAll f cs') :=
  Amid.pass cs' (d := { d with lexeme := d.lexeme ++ cs'.map f })
    ⟨h.text_eq, h.offset, h.pos, h.lexemes, h.start⟩

end Driver

end MiniC
