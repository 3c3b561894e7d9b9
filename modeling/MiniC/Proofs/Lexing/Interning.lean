import MiniC.Proofs.Lexing.Respelled

set_option autoImplicit false

/-! # Numbers as names

The number of a token stands for its text, and the text decides what the token is: lexemes of one
text have the same kind and the same parts. So a number names a token of one kind only. -/

namespace MiniC

/-! ## The text decides the lexeme -/

/-- Lexemes that stand alone are the same, apart from their places, if they have the same text. -/
theorem Lexeme.Rereads.unplaced_eq {l l' : Lexeme} (h : l.Rereads) (h' : l'.Rereads)
    (htext : l.text = l'.text) : l.unplaced = l'.unplaced := by
  obtain ⟨c, rest, hspelled, hread⟩ := h
  obtain ⟨c', rest', hspelled', hread'⟩ := h'
  rw [htext, hspelled'] at hspelled
  cases hspelled
  obtain ⟨again, hread, hsame⟩ := hread .start
  obtain ⟨again', hread', hsame'⟩ := hread' .start
  have heq : (some again, rest.length) = (some again', rest.length) :=
    Except.ok.inj (hread.readPiece_eq.symm.trans hread'.readPiece_eq)
  cases heq
  rw [← hsame, ← hsame']

theorem Respellable.rereads_or_point {ls : List Lexeme} (h : Respellable ls) {l : Lexeme}
    (hl : l ∈ ls) : l.Rereads ∨ l.unplaced = ⟨.punctuator, ".", .start, []⟩ := by
  induction h with
  | nil => cases hl
  | line hfirst _ ih =>
    rcases List.mem_cons.mp hl with rfl | hl
    · exact .inl hfirst
    · exact ih hl
  | point hfirst _ _ ih =>
    rcases List.mem_cons.mp hl with rfl | hl
    · exact .inr hfirst
    · exact ih hl

/-- Lexemes of one source text are the same, apart from their places, if they have the same text. A
point is told from the others by its text, since it is the only one that does not stand alone. -/
theorem unplaced_eq_of_text_eq {source : String} {ls : List Lexeme} (h : scan source = .ok ls)
    {l l' : Lexeme} (hl : l ∈ ls) (hl' : l' ∈ ls) (htext : l.text = l'.text) :
    l.unplaced = l'.unplaced := by
  rw [scan, Position.start_eq_endOf] at h
  obtain ⟨ls, rfl, hls, -⟩ := respellable_of_scanFrom h
  have hpoint : ∀ {l : Lexeme}, l.unplaced = ⟨.punctuator, ".", .start, []⟩ → l.text = "." :=
    fun hl => congrArg Lexeme.text hl
  rcases hls.rereads_or_point hl with halone | hl <;>
    rcases hls.rereads_or_point hl' with halone' | hl'
  · exact halone.unplaced_eq halone' htext
  · exact absurd (htext.trans (hpoint hl')) halone.text_ne_point
  · exact absurd (htext.symm.trans (hpoint hl)) halone'.text_ne_point
  · rw [hl, hl']

/-! ## The numbers in order -/

/-- The first appearances of the images are the images of the first appearances, if different
members have different images. -/
theorem eraseDups_map {α β : Type} [BEq α] [LawfulBEq α] [BEq β] [LawfulBEq β] {f : α → β}
    {l : List α} (hf : ∀ x ∈ l, ∀ y ∈ l, f x = f y → x = y) :
    (l.map f).eraseDups = l.eraseDups.map f := by
  induction l using List.reverseRecOn with
  | nil => rfl
  | append_singleton l x ih =>
    have hih := ih fun y hy z hz => hf y (List.mem_append_left _ hy) z (List.mem_append_left _ hz)
    have hlast : x ∈ l ++ [x] := List.mem_append_right l List.mem_cons_self
    rw [List.map_append, List.map_singleton]
    by_cases hx : x ∈ l
    · rw [eraseDups_append_of_mem hx, eraseDups_append_of_mem (List.mem_map_of_mem hx), hih]
    · have hnew : f x ∉ l.map f := by
        intro hmem
        obtain ⟨y, hy, heq⟩ := List.mem_map.mp hmem
        exact hx (hf y (List.mem_append_left _ hy) x hlast heq ▸ hy)
      rw [eraseDups_append_of_not_mem hx, eraseDups_append_of_not_mem hnew, hih, List.map_append,
        List.map_singleton]

theorem nodup_eraseDups {α : Type} [BEq α] [LawfulBEq α] (l : List α) : l.eraseDups.Nodup := by
  induction l using List.reverseRecOn with
  | nil => exact List.nodup_nil
  | append_singleton l x ih =>
    by_cases hx : x ∈ l
    · rwa [eraseDups_append_of_mem hx]
    · rw [eraseDups_append_of_not_mem hx]
      exact List.nodup_append.mpr ⟨ih, List.nodup_singleton x, fun y hy z hz heq =>
        hx (List.mem_singleton.mp hz ▸ heq ▸ List.mem_eraseDups.mp hy)⟩

/-- The members of a list without repetition stand at the places from zero on. -/
theorem map_idxOf_of_nodup {α : Type} [BEq α] [LawfulBEq α] {l : List α} (h : l.Nodup) :
    l.map (fun x => l.idxOf x + 1) = List.range' 1 l.length := by
  refine List.ext_getElem (by simp) fun i hi hi' => ?_
  rw [List.getElem_map, List.getElem_range', h.idxOf_getElem]
  omega

/-- The number of a lexeme among others. -/
theorem mem_numbered {ls : List Lexeme} {t : Token} (h : t ∈ Lexeme.numbered ls) :
    t.toLexeme ∈ ls ∧ t.id = (ls.map Lexeme.text).eraseDups.idxOf t.text + 1 := by
  obtain ⟨l, hl, rfl⟩ := List.mem_map.mp h
  exact ⟨hl, rfl⟩

theorem id_eq_iff_text_eq {ls : List Lexeme} {t t' : Token} (h : t ∈ Lexeme.numbered ls)
    (h' : t' ∈ Lexeme.numbered ls) : t.id = t'.id ↔ t.text = t'.text := by
  obtain ⟨hl, hid⟩ := mem_numbered h
  obtain ⟨-, hid'⟩ := mem_numbered h'
  have hmem : t.text ∈ (ls.map Lexeme.text).eraseDups :=
    List.mem_eraseDups.mpr (List.mem_map_of_mem hl)
  rw [hid, hid', Nat.add_right_cancel_iff]
  exact List.idxOf_inj hmem

theorem eraseDups_ids (ls : List Lexeme) :
    ((Lexeme.numbered ls).map Token.id).eraseDups
      = List.range' 1 ((ls.map Lexeme.text).eraseDups).length := by
  have hids : (Lexeme.numbered ls).map Token.id =
      (ls.map Lexeme.text).map fun text => (ls.map Lexeme.text).eraseDups.idxOf text + 1 := by
    rw [Lexeme.numbered, List.map_map, List.map_map]
    rfl
  rw [hids, eraseDups_map, map_idxOf_of_nodup (nodup_eraseDups _)]
  intro x hx y _ heq
  exact (List.idxOf_inj (List.mem_eraseDups.mpr hx)).mp (Nat.add_right_cancel heq)

/-! ## Tokens of one source text -/

/-- The numbers of the tokens of a source text are those from one on, in the order of their first
appearance. Tokens have the same number if and only if they have the same text, and then they have
the same kind and the same parts, so that a number stands for lexemes of one kind only. -/
theorem tokenize_interns (source : String) (tokens : List Token)
    (h : tokenize source = .ok tokens) :
    (tokens.map Token.id).eraseDups
      = List.range' 1 ((tokens.map (·.text)).eraseDups).length ∧
    (∀ t ∈ tokens, ∀ t' ∈ tokens, t.id = t'.id ↔ t.text = t'.text) ∧
    (∀ t ∈ tokens, ∀ t' ∈ tokens, t.text = t'.text →
      t.kind = t'.kind ∧
        t.parts.map (fun p => (p.kind, p.text)) = t'.parts.map fun p => (p.kind, p.text)) ∧
    (∀ t ∈ tokens, ∀ t' ∈ tokens, t.id = t'.id → t.kind = t'.kind) := by
  obtain ⟨ls, hscan, rfl⟩ := tokenize_eq_ok_iff.mp h
  have hid : ∀ t ∈ Lexeme.numbered ls, ∀ t' ∈ Lexeme.numbered ls,
      t.id = t'.id ↔ t.text = t'.text :=
    fun t ht t' ht' => id_eq_iff_text_eq ht ht'
  have hsame : ∀ t ∈ Lexeme.numbered ls, ∀ t' ∈ Lexeme.numbered ls, t.text = t'.text →
      t.toLexeme.unplaced = t'.toLexeme.unplaced :=
    fun t ht t' ht' => unplaced_eq_of_text_eq hscan (mem_numbered ht).1 (mem_numbered ht').1
  refine ⟨?_, hid, fun t ht t' ht' htext => ?_, fun t ht t' ht' heq => ?_⟩
  · have htexts : (Lexeme.numbered ls).map (·.text) = ls.map Lexeme.text := by
      rw [Lexeme.numbered, List.map_map]
      rfl
    rw [htexts]
    exact eraseDups_ids ls
  · obtain ⟨hkind, -, -, hparts⟩ := Lexeme.mk.inj (hsame t ht t' ht' htext)
    refine ⟨hkind, ?_⟩
    have hmapped := congrArg (List.map fun p => (p.kind, p.text)) hparts
    rwa [List.map_map, List.map_map] at hmapped
  · exact (Lexeme.mk.inj (hsame t ht t' ht' ((hid t ht t' ht').mp heq))).1

/-- A source text with a number and a string in two spellings or places, and with points. -/
def sampleRepeats : String :=
  "a.b=0X0F;b.a=0x0f+\"a\\n\"; \"a\\n\""

def sampleRepeatTokens : List Token :=
  let quoted (column : Nat) : Lexeme := ⟨.literal .string, "\"a\\n\"", ⟨1, column⟩,
    [⟨.quotes, "\"", ⟨1, column⟩⟩, ⟨.literal .string, "a", ⟨1, column + 1⟩⟩,
     ⟨.escape, "\\n", ⟨1, column + 2⟩⟩, ⟨.quotes, "\"", ⟨1, column + 4⟩⟩]⟩
  [⟨⟨.identifier, "a", ⟨1, 1⟩, []⟩, 1⟩, ⟨⟨.punctuator, ".", ⟨1, 2⟩, []⟩, 2⟩,
   ⟨⟨.identifier, "b", ⟨1, 3⟩, []⟩, 3⟩, ⟨⟨.punctuator, "=", ⟨1, 4⟩, []⟩, 4⟩,
   ⟨⟨.literal (.integer .plain true .hex), "0xf", ⟨1, 5⟩, []⟩, 5⟩,
   ⟨⟨.punctuator, ";", ⟨1, 9⟩, []⟩, 6⟩, ⟨⟨.identifier, "b", ⟨1, 10⟩, []⟩, 3⟩,
   ⟨⟨.punctuator, ".", ⟨1, 11⟩, []⟩, 2⟩, ⟨⟨.identifier, "a", ⟨1, 12⟩, []⟩, 1⟩,
   ⟨⟨.punctuator, "=", ⟨1, 13⟩, []⟩, 4⟩,
   ⟨⟨.literal (.integer .plain true .hex), "0xf", ⟨1, 14⟩, []⟩, 5⟩,
   ⟨⟨.punctuator, "+", ⟨1, 18⟩, []⟩, 7⟩, ⟨quoted 19, 8⟩, ⟨⟨.punctuator, ";", ⟨1, 24⟩, []⟩, 6⟩,
   ⟨quoted 26, 8⟩]

theorem tokenize_interns_sample :
    tokenize sampleRepeats = .ok sampleRepeatTokens ∧
      (sampleRepeatTokens.map Token.id).eraseDups = List.range' 1 8 ∧
      ∀ t ∈ sampleRepeatTokens, ∀ t' ∈ sampleRepeatTokens, t.id = t'.id → t.kind = t'.kind := by
  have h : tokenize sampleRepeats = .ok sampleRepeatTokens := by
    rw [tokenize_eq]
    cbv
  obtain ⟨hids, -, -, hkinds⟩ := tokenize_interns _ _ h
  exact ⟨h, hids, hkinds⟩

end MiniC
