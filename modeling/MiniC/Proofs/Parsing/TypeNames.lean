import MiniC.Proofs.Parsing.Bare
import MiniC.Proofs.Parsing.Outcomes

set_option autoImplicit false

/-! # Type names

What is read of the words of a type and of its pointer marks. In front of the first declarator of a
declaration they are all read at once, as one type name; in front of a further one there are only
pointer marks. -/

namespace MiniC

open Grammar Rule

/-! ## Tokens up to positions -/

/-- Whether the given tokens stand at a place, up to positions. -/
def Reads (tokens : Array Token) : Nat → List Token → Prop
  | _, [] => True
  | place, t :: rest =>
    (∃ u, tokens[place]? = some u ∧ u.bare = t.bare) ∧ Reads tokens (place + 1) rest

section

variable {tokens : Array Token} {place : Nat}

theorem reads_append {front rest : List Token} : Reads tokens place (front ++ rest) ↔
    Reads tokens place front ∧ Reads tokens (place + front.length) rest := by
  induction front generalizing place with
  | nil => simp [Reads]
  | cons t front ih =>
    rw [List.cons_append, Reads, Reads, ih, List.length_cons, Nat.add_right_comm, Nat.add_assoc,
      and_assoc]

theorem reads_of_map_bare {front words : List Token} {l : List Token}
    (h : words.map Token.bare = l.map Token.bare) :
    Reads (front ++ words).toArray front.length l := by
  induction words generalizing front l with
  | nil =>
    rw [List.map_nil, eq_comm, List.map_eq_nil_iff] at h
    subst h
    trivial
  | cons u words ih =>
    cases l with
    | nil => cases h
    | cons t l =>
      obtain ⟨hfirst, hrest⟩ := List.cons.inj h
      refine ⟨⟨u, by simp, hfirst⟩, ?_⟩
      have hmore : Reads (front ++ [u] ++ words).toArray (front ++ [u]).length l := ih hrest
      rwa [List.append_assoc, List.length_append] at hmore

theorem reads_toArray {words l : List Token} (h : words.map Token.bare = l.map Token.bare) :
    Reads words.toArray 0 l :=
  @reads_of_map_bare [] words l h

theorem Reads.get {l : List Token} (h : Reads tokens place l) {k : Nat} {t : Token}
    (hk : l[k]? = some t) : ∃ u, tokens[place + k]? = some u ∧ u.bare = t.bare := by
  induction l generalizing place k with
  | nil => cases hk
  | cons first rest ih =>
    cases k with
    | zero =>
      cases hk
      exact h.1
    | succ k =>
      rw [Nat.add_comm k, ← Nat.add_assoc]
      exact ih h.2 hk

end

/-! ## Type names -/

/-- Whether tokens are one part of a base type: a type keyword, or `struct` with a tag. -/
inductive IsTypePart : List Token → Prop
  | word {t : Token} (hkind : t.kind = .typeKeyword) (htext : t.text ≠ "struct") : IsTypePart [t]
  | struct {t tag : Token} (ht : t.isTypeKeyword "struct" = true)
    (htag : tag.isIdentifier = true) : IsTypePart [t, tag]

/-- Whether tokens are the words of a type without pointer marks. -/
def IsBase (base : List Token) : Prop :=
  ∃ parts, parts ≠ [] ∧ (∀ part ∈ parts, IsTypePart part) ∧ base = parts.flatten

/-- Whether a token is a pointer mark: a star, or the word `const`. -/
def Token.isMark (t : Token) : Bool :=
  t.isPunctuator "*" || t.isTypeKeyword "const"

/-- What is read as one more part of a type name. -/
def furtherPart : G :=
  .oneOf (.rule .structType) [simpleType, punct "*"]

section

variable {tokens : Array Token} {place : Nat}

/-- A token is tested by its kind and its spelling. -/
theorem accepts_of_bare (accepts : Token → Bool)
    (haccepts : ∀ t : Token, accepts t.bare = accepts t) {t u : Token} (h : u.bare = t.bare) :
    accepts u = accepts t := by
  rw [← haccepts u, h, haccepts t]

theorem gives_token_of_reads (accepts : Token → Bool)
    (haccepts : ∀ t : Token, accepts t.bare = accepts t) {t : Token} {rest : List Token}
    (h : Reads tokens place (t :: rest)) (ht : accepts t = true) :
    ∃ u, u.bare = t.bare ∧
      Gives Rule.table tokens (.token accepts) place (some (.leaf u 0, place + 1)) := by
  obtain ⟨⟨u, hu, hbare⟩, -⟩ := h
  exact ⟨u, hbare, gives_token hu ((accepts_of_bare accepts haccepts hbare).trans ht)⟩

theorem gives_not_token_of_reads (accepts : Token → Bool)
    (haccepts : ∀ t : Token, accepts t.bare = accepts t) {t : Token} {rest : List Token}
    (h : Reads tokens place (t :: rest)) (ht : accepts t = false) :
    Gives Rule.table tokens (.token accepts) place none := by
  obtain ⟨⟨u, hu, hbare⟩, -⟩ := h
  refine gives_not_token fun u' hu' => ?_
  cases hu.symm.trans hu'
  exact (accepts_of_bare accepts haccepts hbare).trans ht

theorem gives_not_structType {t : Token} {rest : List Token} (h : Reads tokens place (t :: rest))
    (ht : t.isTypeKeyword "struct" = false) :
    Gives Rule.table tokens (.rule .structType) place none := by
  have hword := gives_not_token_of_reads (·.isTypeKeyword "struct") (fun _ => rfl) h ht
  have hsteps : GivesSteps Rule.table tokens [(typeWord "struct").step, identifier.step] [] place
      none := hword.notSteps rfl
  exact .rule rfl hsteps.notSequence

/-- Whether a token is a type keyword other than `struct`. -/
def isSimpleType (t : Token) : Bool :=
  t.kind = .typeKeyword && t.text ≠ "struct"

theorem gives_typePart {part rest : List Token} (hpart : IsTypePart part)
    (h : Reads tokens place (part ++ rest)) : ∃ words, words.map Token.bare = part.map Token.bare ∧
      Gives Rule.table tokens (.choice (.rule .structType) simpleType) place
        (some (Tree.ofTypeTokens words, place + part.length)) := by
  cases hpart with
  | @word t hkind htext =>
    have hnot := gives_not_structType h (by simp [Token.isTypeKeyword, htext])
    obtain ⟨u, hu, hword⟩ := gives_token_of_reads isSimpleType (fun _ => rfl) h
      (by simp [isSimpleType, hkind, htext])
    exact ⟨[u], congrArg (fun w => [w]) hu, hnot.second hword⟩
  | @struct t tag ht htag =>
    obtain ⟨u, hu, hword⟩ :=
      gives_token_of_reads (·.isTypeKeyword "struct") (fun _ => rfl) h ht
    obtain ⟨v, hv, htag⟩ := gives_token_of_reads Token.isIdentifier (fun _ => rfl) h.2 htag
    have hsteps : GivesSteps Rule.table tokens [(typeWord "struct").step, identifier.step] [] place
        (some ([.leaf u 0, .leaf v 0], place + 1 + 1)) := .cons hword (.cons htag givesSteps_nil)
    have hstruct : Gives Rule.table tokens (.rule .structType) place
        (some (Tree.ofTypeTokens [u, v], place + 1 + 1)) := .rule rfl (hsteps.sequence rfl)
    refine ⟨[u, v], ?_, hstruct.first _⟩
    rw [List.map_cons, List.map_cons, hu, hv]
    rfl

theorem joinTypes_ofTypeTokens {words more : List Token} (hwords : words ≠ []) (hmore : more ≠ []) :
    joinTypes (Tree.ofTypeTokens words) (Tree.ofTypeTokens more) =
      Tree.ofTypeTokens (words ++ more) := by
  rw [joinTypes, Tree.typeTokens_ofTypeTokens, Tree.typeTokens_ofTypeTokens]
  obtain ⟨first, words, rfl⟩ := List.exists_cons_of_ne_nil hwords
  obtain ⟨second, more, rfl⟩ := List.exists_cons_of_ne_nil hmore
  cases words <;> rfl

/-- Whether tokens are one more part of a type name: a part of a base type, or a star. -/
def IsFurtherPart (part : List Token) : Prop :=
  IsTypePart part ∨ ∃ t, part = [t] ∧ t.isPunctuator "*" = true

theorem gives_furtherPart {part rest : List Token} (hpart : IsFurtherPart part)
    (h : Reads tokens place (part ++ rest)) : ∃ words, words.map Token.bare = part.map Token.bare ∧
      Gives Rule.table tokens furtherPart place
        (some (Tree.ofTypeTokens words, place + part.length)) := by
  rcases hpart with hpart | ⟨t, rfl, ht⟩
  · obtain ⟨words, hwords, hgives⟩ := gives_typePart hpart h
    exact ⟨words, hwords, hgives.first _⟩
  · have hkind : t.kind = .punctuator := by
      rw [Token.isPunctuator, Bool.and_eq_true] at ht
      exact of_decide_eq_true ht.1
    have hnot := gives_not_structType h (by simp [Token.isTypeKeyword, hkind])
    have hnot' := gives_not_token_of_reads isSimpleType (fun _ => rfl) h
      (by simp [isSimpleType, hkind])
    obtain ⟨u, hu, hstar⟩ := gives_token_of_reads (·.isPunctuator "*") (fun _ => rfl) h ht
    exact ⟨[u], congrArg (fun w => [w]) hu, (hnot.second hnot').second hstar⟩

/-- A type name ends at an identifier. -/
theorem gives_not_furtherPart {t : Token} {rest : List Token}
    (h : Reads tokens place (t :: rest)) (ht : t.isIdentifier = true) :
    Gives Rule.table tokens furtherPart place none := by
  have hkind : t.kind = .identifier := of_decide_eq_true ht
  have hnot := gives_not_structType h (by simp [Token.isTypeKeyword, hkind])
  have hnot' := gives_not_token_of_reads isSimpleType (fun _ => rfl) h
    (by simp [isSimpleType, hkind])
  have hnot'' := gives_not_token_of_reads (·.isPunctuator "*") (fun _ => rfl) h
    (by simp [Token.isPunctuator, hkind])
  exact (hnot.second hnot').second hnot''

theorem ne_nil_of_isFurtherPart {part : List Token} (h : IsFurtherPart part) : part ≠ [] := by
  rcases h with h | ⟨t, rfl, -⟩
  · cases h <;> exact List.cons_ne_nil _ _
  · exact List.cons_ne_nil _ _

theorem givesFold_furtherParts {parts : List (List Token)} {name : Token} {rest words : List Token}
    (hparts : ∀ part ∈ parts, IsFurtherPart part) (hname : name.isIdentifier = true)
    (h : Reads tokens place (parts.flatten ++ name :: rest)) (hwords : words ≠ []) :
    ∃ more, more.map Token.bare = parts.flatten.map Token.bare ∧
      GivesFold Rule.table tokens furtherPart joinTypes true (Tree.ofTypeTokens words) place
        (some (Tree.ofTypeTokens (words ++ more), place + parts.flatten.length)) := by
  induction parts generalizing place words with
  | nil =>
    refine ⟨[], rfl, ?_⟩
    rw [List.append_nil]
    exact (gives_not_furtherPart h hname).foldEnd _
  | cons part parts ih =>
    obtain ⟨hpart, hrest⟩ := List.forall_mem_cons.mp hparts
    rw [List.flatten_cons, List.append_assoc] at h
    obtain ⟨new, hnew, hgives⟩ := gives_furtherPart hpart h
    have hne : new ≠ [] := fun hnil => by
      rw [hnil, List.map_nil, eq_comm, List.map_eq_nil_iff] at hnew
      exact ne_nil_of_isFurtherPart hpart hnew
    obtain ⟨more, hmore, hfold⟩ := ih hrest (reads_append.mp h).2
      (List.append_ne_nil_of_left_ne_nil hwords new)
    refine ⟨new ++ more, ?_, ?_⟩
    · rw [List.map_append, hnew, hmore, List.flatten_cons, List.map_append]
    · rw [← List.append_assoc, List.flatten_cons, List.length_append, ← Nat.add_assoc]
      refine GivesFold.more hgives ?_
      rwa [joinTypes_ofTypeTokens hwords hne]

theorem isFurtherPart_of_isMark {t : Token} (h : t.isMark = true) : IsFurtherPart [t] := by
  rcases Bool.or_eq_true_iff.mp h with h | h
  · exact .inr ⟨t, rfl, h⟩
  · rw [Token.isTypeKeyword, Bool.and_eq_true, decide_eq_true_eq, decide_eq_true_eq] at h
    exact .inl (.word h.1 (by rw [h.2]; decide))

/-- The words of a base type and pointer marks are read as one type name. -/
theorem gives_typeName {base marks rest : List Token} {name : Token} (hbase : IsBase base)
    (hmarks : ∀ t ∈ marks, t.isMark = true) (hname : name.isIdentifier = true)
    (h : Reads tokens place (base ++ marks ++ name :: rest)) :
    ∃ words, words.map Token.bare = (base ++ marks).map Token.bare ∧
      Gives Rule.table tokens (.rule .typeName) place
        (some (Tree.ofTypeTokens words, place + (base ++ marks).length)) := by
  obtain ⟨parts, hne, hparts, rfl⟩ := hbase
  obtain ⟨first, others, rfl⟩ := List.exists_cons_of_ne_nil hne
  obtain ⟨hfirst, hothers⟩ := List.forall_mem_cons.mp hparts
  have hall : ∀ part ∈ others ++ marks.map ([·]), IsFurtherPart part := by
    refine List.forall_mem_append.mpr ⟨fun part hmem => .inl (hothers part hmem), ?_⟩
    exact List.forall_mem_map.mpr fun t ht => isFurtherPart_of_isMark (hmarks t ht)
  have hflatten : (others ++ marks.map ([·])).flatten = others.flatten ++ marks := by
    rw [List.flatten_append, ← List.flatMap_def, List.flatMap_singleton']
  rw [List.flatten_cons, List.append_assoc, List.append_assoc] at h
  obtain ⟨words, hwords, hgives⟩ := gives_typePart hfirst h
  have hrest := (reads_append.mp h).2
  rw [← List.append_assoc, ← hflatten] at hrest
  have hne : words ≠ [] := fun hnil => by
    rw [hnil, List.map_nil, eq_comm, List.map_eq_nil_iff] at hwords
    exact ne_nil_of_isFurtherPart (.inl hfirst) hwords
  obtain ⟨more, hmore, hfold⟩ := givesFold_furtherParts hall hname hrest hne
  refine ⟨words ++ more, ?_, .rule rfl ?_⟩
  · rw [List.map_append, hwords, hmore, hflatten, List.flatten_cons, List.append_assoc,
      ← List.map_append]
  · rw [List.flatten_cons, List.append_assoc, List.length_append, ← Nat.add_assoc, ← hflatten]
    exact hfold.fold hgives

/-- Pointer marks are read one by one, up to an identifier. -/
theorem givesItems_marks {marks rest : List Token} {name : Token}
    (hmarks : ∀ t ∈ marks, t.isMark = true) (hname : name.isIdentifier = true)
    (h : Reads tokens place (marks ++ name :: rest)) (earlier : List Tree) :
    ∃ words : List Token, words.map Token.bare = marks.map Token.bare ∧
      GivesItems Rule.table tokens (.choice (punct "*") (typeWord "const")) none earlier place
        (some (earlier.reverse ++ words.map fun t => .leaf t 0, place + marks.length)) := by
  induction marks generalizing place earlier with
  | nil =>
    have hkind : name.kind = .identifier := of_decide_eq_true hname
    have hstar := gives_not_token_of_reads (·.isPunctuator "*") (fun _ => rfl) h
      (by simp [Token.isPunctuator, hkind])
    have hconst := gives_not_token_of_reads (·.isTypeKeyword "const") (fun _ => rfl) h
      (by simp [Token.isTypeKeyword, hkind])
    refine ⟨[], rfl, ?_⟩
    rw [List.map_nil, List.append_nil]
    exact (hstar.second hconst).itemsEnd earlier
  | cons t marks ih =>
    obtain ⟨ht, hrest⟩ := List.forall_mem_cons.mp hmarks
    obtain ⟨u, hu, hmark⟩ : ∃ u, u.bare = t.bare ∧
        Gives Rule.table tokens (.choice (punct "*") (typeWord "const")) place
          (some (.leaf u 0, place + 1)) := by
      cases hstar : t.isPunctuator "*" with
      | true =>
        obtain ⟨u, hu, hgives⟩ := gives_token_of_reads (·.isPunctuator "*") (fun _ => rfl) h hstar
        exact ⟨u, hu, hgives.first _⟩
      | false =>
        have hnot := gives_not_token_of_reads (·.isPunctuator "*") (fun _ => rfl) h hstar
        rw [Token.isMark, hstar, Bool.false_or] at ht
        obtain ⟨u, hu, hgives⟩ :=
          gives_token_of_reads (·.isTypeKeyword "const") (fun _ => rfl) h ht
        exact ⟨u, hu, hnot.second hgives⟩
    obtain ⟨words, hwords, hmore⟩ := ih hrest h.2 (.leaf u 0 :: earlier)
    refine ⟨u :: words, by rw [List.map_cons, List.map_cons, hu, hwords], ?_⟩
    rw [List.reverse_cons, List.append_assoc] at hmore
    rw [List.length_cons, Nat.add_comm marks.length, ← Nat.add_assoc]
    exact GivesItems.more hmark hmore

end

end MiniC
