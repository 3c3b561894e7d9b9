import MiniC.Proofs.Arena
import MiniC.Proofs.Lexing.Escapes
import MiniC.Proofs.Trace
import MiniC.Run.Expr

set_option autoImplicit false

/-! # Printed strings

A string is read from its buffer one character after the other, up to the first zero, and never
past the end of the buffer. A string literal that is printed comes out as it was written: its
characters in front of the first zero, each with its code modulo 256, since a character has eight
bits. -/

namespace MiniC

/-! ## Reading strings -/

namespace Arena

/-- How a string is read from a pointer on: the characters that are loaded one after the other, up
to a zero. A slot that holds no character, or cannot be loaded, is a fault. -/
inductive ReadsFrom (a : Arena) : Pointer → Except Fault (List Nat) → Prop
  | fault {p : Pointer} {e : Fault} (hload : a.load p = .error e) : ReadsFrom a p (.error e)
  | other {p : Pointer} {v : Value} (hload : a.load p = .ok v) (hv : ∀ n, v ≠ .int n) :
    ReadsFrom a p (.error .notAString)
  | zero {p : Pointer} {n : MachineInt} (hload : a.load p = .ok (.int n)) (hn : n.value = 0) :
    ReadsFrom a p (.ok [])
  | more {p : Pointer} {n : MachineInt} {codes : Except Fault (List Nat)}
    (hload : a.load p = .ok (.int n)) (hn : n.value ≠ 0) (hrest : ReadsFrom a (p.moved 1) codes) :
    ReadsFrom a p (codes.map ((n.value % 256).toNat :: ·))

/-- Whether a pointer leads to a place of a live buffer, or to the end of it. -/
structure Within (a : Arena) (p : Pointer) (values : Array Value) : Prop where
  buffer : a.buffer? p.buffer = some values
  nonneg : 0 ≤ p.index

theorem Within.not_isNull {a : Arena} {p : Pointer} {values : Array Value}
    (h : a.Within p values) : p.isNull = false := by
  have hne : p.buffer ≠ 0 := by
    intro hzero
    have hbuffer := h.buffer
    rw [hzero] at hbuffer
    cases hbuffer
  simpa [Pointer.isNull] using hne

theorem Within.moved {a : Arena} {p : Pointer} {values : Array Value} (h : a.Within p values) :
    a.Within (p.moved 1) values where
  buffer := h.buffer
  nonneg := by
    have := h.nonneg
    simp only [Pointer.moved]
    omega

theorem Within.locate_eq {a : Arena} {p : Pointer} {values : Array Value}
    (h : a.Within p values) :
    a.locate p = if p.index.toNat < values.size then .ok (values, p.index.toNat)
      else .error .invalidIndex := by
  have hnonneg := h.nonneg
  have hindex : (0 ≤ p.index ∧ p.index < (values.size : Int)) ↔ p.index.toNat < values.size := by
    omega
  simp [locate, h.not_isNull, h.buffer, hindex]

theorem Within.load_of_lt {a : Arena} {p : Pointer} {values : Array Value}
    (h : a.Within p values) (hlt : p.index.toNat < values.size) :
    a.load p = .ok values[p.index.toNat] := by
  rw [load, h.locate_eq, if_pos hlt]
  simp only [bind, Except.bind, Array.getElem?_eq_getElem hlt]
  rfl

theorem Within.load_of_ge {a : Arena} {p : Pointer} {values : Array Value}
    (h : a.Within p values) (hge : values.size ≤ p.index.toNat) :
    a.load p = .error .invalidIndex := by
  rw [load, h.locate_eq, if_neg (Nat.not_lt.mpr hge)]
  rfl

/-- From a place of a buffer on, the characters are loaded one after the other. -/
theorem Within.readsFrom {a : Arena} {p : Pointer} {values : Array Value}
    (h : a.Within p values) : a.ReadsFrom p (codesToZero (values.toList.drop p.index.toNat)) := by
  generalize hrest : values.toList.drop p.index.toNat = rest
  induction rest generalizing p with
  | nil =>
    have hge : values.size ≤ p.index.toNat := List.drop_eq_nil_iff.mp hrest
    exact .fault (h.load_of_ge hge)
  | cons v rest ih =>
    have hlt : p.index.toNat < values.size := by
      have hlength := congrArg List.length hrest
      simp only [List.length_drop, Array.length_toList, List.length_cons] at hlength
      omega
    rw [List.drop_eq_getElem_cons hlt, List.cons.injEq, Array.getElem_toList] at hrest
    have hload : a.load p = .ok v := hrest.1 ▸ h.load_of_lt hlt
    have hmoved : (p.moved 1).index.toNat = p.index.toNat + 1 := by
      have := h.nonneg
      simp only [Pointer.moved]
      omega
    cases v with
    | int n =>
      rw [codesToZero]
      split
      next hn => exact .zero hload hn
      next hn => exact .more hload hn (ih h.moved (by rw [hmoved, hrest.2]))
    | _ => exact .other hload nofun

theorem length_lt_of_codesToZero {values : List Value} {codes : List Nat}
    (h : codesToZero values = .ok codes) : codes.length < values.length := by
  induction values generalizing codes with
  | nil => cases h
  | cons v rest ih =>
    cases v with
    | int n =>
      rw [codesToZero] at h
      split at h
      · cases h
        exact Nat.zero_lt_succ _
      · cases hrest : codesToZero rest with
        | error e =>
          rw [hrest] at h
          cases h
        | ok others =>
          rw [hrest] at h
          cases h
          exact Nat.succ_lt_succ (ih hrest)
    | _ => cases h

theorem within_of_locate {a : Arena} {p : Pointer} {values : Array Value} {i : Nat}
    (h : a.locate p = .ok (values, i)) : a.Within p values ∧ i = p.index.toNat := by
  unfold locate at h
  split at h
  · cases h
  · split at h
    · cases h
    next hbuffer =>
      split at h <;> cases h
      next hindex =>
        rw [Bool.and_eq_true, decide_eq_true_eq] at hindex
        exact ⟨⟨hbuffer, hindex.1⟩, rfl⟩

/-- A string is read as if its characters were loaded one after the other, wherever the pointer
leads. -/
theorem readsFrom_readString (a : Arena) (p : Pointer) : a.ReadsFrom p (a.readString p) := by
  rw [readString]
  cases hlocate : a.locate p with
  | error e =>
    refine .fault ?_
    rw [load, hlocate]
    rfl
  | ok place =>
    obtain ⟨hwithin, hindex⟩ := within_of_locate hlocate
    show a.ReadsFrom p (codesToZero (place.1.toList.drop place.2))
    rw [hindex]
    exact hwithin.readsFrom

/-- The zero behind a string that was read is still inside the buffer. -/
theorem within_of_readString {a : Arena} {p : Pointer} {codes : List Nat}
    (h : a.readString p = .ok codes) :
    ∃ values, a.Within p values ∧ p.index.toNat + codes.length < values.size := by
  obtain ⟨⟨values, i⟩, hlocate, hcodes⟩ := exists_of_bind_eq_ok h
  obtain ⟨hwithin, rfl⟩ := within_of_locate hlocate
  have hlength := length_lt_of_codesToZero hcodes
  simp only [List.length_drop, Array.length_toList] at hlength
  exact ⟨values, hwithin, by omega⟩

/-! ## String literals -/

theorem codesToZero_characters (codes : List Nat) :
    codesToZero ((codes ++ [0]).map fun code => .int (.ofCode code)) =
      .ok ((codes.takeWhile (· ≠ 0)).map (· % 256)) := by
  induction codes with
  | nil => rfl
  | cons code codes ih =>
    rw [List.cons_append, List.map_cons, codesToZero, ih]
    by_cases hcode : code = 0
    · subst hcode
      rfl
    · have hvalue : (MachineInt.ofCode code).value ≠ 0 := by simpa [MachineInt.ofCode] using hcode
      rw [if_neg hvalue, List.takeWhile_cons_of_pos (by simpa using hcode)]
      have hmod : (Int.ofNat code % 256).toNat = code % 256 := by
        simp only [Int.ofNat_eq_natCast]
        omega
      simp [Except.map, MachineInt.ofCode, ← hmod]

/-- A buffer with the characters of a literal holds what the literal spells in front of its first
zero. -/
theorem readString_alloc (a : Arena) (l : Lexeme) (target : Option CType) :
    (a.alloc l.characters.toArray).2.readString ⟨a.next, 0, target⟩ =
      .ok ((l.codePoints.takeWhile (· ≠ 0)).map (· % 256)) := by
  have hwithin : (a.alloc l.characters.toArray).2.Within ⟨a.next, 0, target⟩
      l.characters.toArray := ⟨by rw [buffer?_alloc, if_pos rfl], le_rfl⟩
  have hlocate := hwithin.locate_eq
  rw [if_pos (by simp [Lexeme.characters])] at hlocate
  rw [readString, hlocate]
  show codesToZero (l.characters.toArray.toList.drop 0) = _
  rw [List.drop_zero, Lexeme.characters, codesToZero_characters]

end Arena

/-! ## Printing -/

/-- The text that is printed for characters with the given codes: those in front of the first zero,
each with its code modulo 256. -/
def printedText (codes : List Nat) : String :=
  String.ofList ((codes.takeWhile (· ≠ 0)).map fun code => Char.ofNat (code % 256))

namespace Run

variable {m : Machine} {t : Token} {slot : Nat}

/-- A string literal that is evaluated first gets a buffer for its characters. -/
theorem exec_stringLiteral (ctx : Context) (hnew : m.strings.lookup slot = none) :
    (eval ctx (.literal ⟨t, slot⟩ .string)).exec m =
      .ok (.pointer ⟨m.arena.next, 0, some .char⟩) (m.keepString slot t.characters.toArray).2 := by
  have hbuffer : (stringBuffer ⟨t, slot⟩).exec m =
      .ok m.arena.next (m.keepString slot t.characters.toArray).2 := by
    rw [stringBuffer, Traced.exec_bind_of_ok _ (Traced.exec_get m)]
    simp only [hnew]
    rfl
  exact Traced.exec_bind_of_ok _ hbuffer

/-- A string that is read is printed as a line of its own. -/
theorem exec_print {p : Pointer} {codes : List Nat} (h : m.arena.readString p = .ok codes) :
    (print (.pointer p)).exec m = .ok (.int (.plain (Int.ofNat codes.length + 1)))
      { m with output := m.output ++ String.ofList (codes.map Char.ofNat) ++ "\n" } := by
  have hread : (lift (m.arena.readString p)).exec m = .ok codes m := by rw [h]; rfl
  have hlength : (String.ofList (codes.map Char.ofNat)).length = codes.length := by simp
  rw [← hlength]
  rw [print, Traced.exec_bind_of_ok _ (Traced.exec_get m),
    Traced.exec_bind_of_ok _ hread]
  rfl

/-- The function that is there without a declaration prints the value of its argument. -/
theorem exec_printCall (ctx : Context) {name : Leaf} (hname : name.token.text = printName)
    (hundeclared : m.functions.lookup name.token.id = none) {e : Expr} {v : Value}
    {m' m'' : Machine} {count : Value} (he : (eval ctx e).exec m = .ok v m')
    (hprint : (print v).exec m' = .ok count m'') :
    (eval ctx (.call (.identifier name) [e])).exec m = .ok count m'' := by
  have hinvoke : (invoke ctx (.identifier name) (evalFirst ctx [e]) (evalAll ctx [e])).exec m =
      .ok (some count) m'' := by
    rw [invoke, Traced.exec_bind_of_ok _ (Traced.exec_get m)]
    simp only [hundeclared, if_pos hname]
    have hfirst : (printFirst name.token.pos (evalFirst ctx [e])).exec m = .ok count m'' :=
      (Traced.exec_bind_of_ok _ he).trans hprint
    exact Traced.exec_bind_of_ok _ hfirst
  rw [eval]
  exact Traced.exec_bind_of_ok _ hinvoke

/-- A string is read from its buffer one character after the other and never past the end of the
buffer. A string literal of a source text has the codes that its spelling denotes. Where it is
evaluated first, it is a pointer to these codes and a zero; where it is printed, the line has the
characters in front of the first zero, each with its code modulo 256, and the result is the number
of characters in the line. -/
theorem print_stringLiteral {source : String} {tokens : List Token} {t : Token}
    (htokens : tokenize source = .ok tokens) (ht : t ∈ tokens) (hkind : t.kind = .literal .string)
    (ctx : Context) {m : Machine} {slot : Nat} (hnew : m.strings.lookup slot = none) {name : Leaf}
    (hname : name.token.text = printName)
    (hundeclared : m.functions.lookup name.token.id = none) :
    (∀ (a : Arena) (p : Pointer), a.ReadsFrom p (a.readString p) ∧
      ∀ codes, a.readString p = .ok codes →
        ∃ values, a.Within p values ∧ p.index.toNat + codes.length < values.size) ∧
    t.IsString ∧
    ∃ m', (eval ctx (.literal ⟨t, slot⟩ .string)).exec m =
        .ok (.pointer ⟨m.arena.next, 0, some .char⟩) m' ∧
      m'.arena.readString ⟨m.arena.next, 0, some .char⟩ =
        .ok ((t.codePoints.takeWhile (· ≠ 0)).map (· % 256)) ∧
      (eval ctx (.call (.identifier name) [.literal ⟨t, slot⟩ .string])).exec m =
        .ok (.int (.plain (Int.ofNat (printedText t.codePoints ++ "\n").length)))
          { m' with output := m.output ++ printedText t.codePoints ++ "\n" } := by
  have hliteral := exec_stringLiteral ctx (t := t) hnew
  have hread : (m.keepString slot t.characters.toArray).2.arena.readString
      ⟨m.arena.next, 0, some .char⟩ = .ok ((t.codePoints.takeWhile (· ≠ 0)).map (· % 256)) :=
    m.arena.readString_alloc t.toLexeme (some .char)
  refine ⟨fun a p => ⟨a.readsFrom_readString p, fun codes => Arena.within_of_readString⟩,
    isString_of_tokenize htokens ht hkind, _, hliteral, hread, ?_⟩
  have hcall := exec_printCall ctx hname hundeclared hliteral (exec_print hread)
  have hcount : (printedText t.codePoints ++ "\n").length =
      ((t.codePoints.takeWhile (· ≠ 0)).map (· % 256)).length + 1 := by
    rw [String.length_append]
    simp [printedText, show "\n".length = 1 from rfl]
  rw [hcall, List.map_map, hcount]
  rfl

/-- The context of a run that knows no types and makes no calls. -/
def plainContext : Context := ⟨fun _ => none, fun _ _ _ => throw .unfinished⟩

/-- The occurrence of `printf` in front of a literal. -/
def printLeaf : Leaf := ⟨⟨⟨.identifier, printName, ⟨1, 1⟩, []⟩, 1⟩, 0⟩

/-- The only token of `"a\x0bc\0d"`. -/
def escapedToken : Token :=
  ⟨⟨.literal .string, "\"a\\x0bc\\0d\"", ⟨1, 1⟩,
    [⟨.quotes, "\"", ⟨1, 1⟩⟩, ⟨.literal .string, "a", ⟨1, 2⟩⟩, ⟨.escape, "\\x0b", ⟨1, 3⟩⟩,
     ⟨.literal .string, "c", ⟨1, 7⟩⟩, ⟨.escape, "\\0", ⟨1, 8⟩⟩, ⟨.literal .string, "d", ⟨1, 10⟩⟩,
     ⟨.quotes, "\"", ⟨1, 11⟩⟩]⟩, 1⟩

/-- The characters behind the zero are not printed. -/
theorem print_stringLiteral_escaped :
    tokenize "\"a\\x0bc\\0d\"" = .ok [escapedToken] ∧ escapedToken.IsString ∧ ∃ m,
      (eval plainContext (.call (.identifier printLeaf) [.literal ⟨escapedToken, 1⟩ .string])).exec
        .start = .ok (.int (.plain 4)) m ∧ m.output = "a\x0bc\n" := by
  have htokens : tokenize "\"a\\x0bc\\0d\"" = .ok [escapedToken] := by
    rw [tokenize_eq]
    cbv
  have hnew : Machine.start.strings.lookup 1 = none := rfl
  have hname : printLeaf.token.text = printName := rfl
  obtain ⟨-, hstring, m', -, -, hcall⟩ :=
    print_stringLiteral htokens List.mem_cons_self rfl plainContext hnew hname rfl
  have hline :
      Machine.start.output ++ printedText escapedToken.codePoints ++ "\n" = "a\x0bc\n" := by
    decide +kernel
  exact ⟨htokens, hstring, _, hcall, hline⟩

/-- The only token of `"€"`. -/
def euroToken : Token :=
  ⟨⟨.literal .string, "\"€\"", ⟨1, 1⟩,
    [⟨.quotes, "\"", ⟨1, 1⟩⟩, ⟨.literal .string, "€", ⟨1, 2⟩⟩, ⟨.quotes, "\"", ⟨1, 3⟩⟩]⟩, 1⟩

/-- A character whose code does not fit into eight bits is printed as another one. -/
theorem not_print_stringLiteral :
    tokenize "\"€\"" = .ok [euroToken] ∧ Quoted.Denotes ['€'] [0x20ac] ∧ ∃ count m,
      (eval plainContext (.call (.identifier printLeaf) [.literal ⟨euroToken, 1⟩ .string])).exec
        .start = .ok count m ∧ m.output = "¬\n" ∧ m.output ≠ "€\n" := by
  have htokens : tokenize "\"€\"" = .ok [euroToken] := by
    rw [tokenize_eq]
    cbv
  have hnew : Machine.start.strings.lookup 1 = none := rfl
  have hname : printLeaf.token.text = printName := rfl
  have hliteral := exec_stringLiteral plainContext (t := euroToken) hnew
  have hread := Machine.start.arena.readString_alloc euroToken.toLexeme (some .char)
  have hcall := exec_printCall plainContext hname rfl hliteral (exec_print hread)
  exact ⟨htokens, .plain rfl .nil, _, _, hcall, by decide +kernel, by decide +kernel⟩

end Run

end MiniC
