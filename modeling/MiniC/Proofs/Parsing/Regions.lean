import MiniC.Proofs.Parsing.Confined

set_option autoImplicit false

/-! # What is parsed without looking on

A parse of a part of a declaration that begins in front of a semicolon goes on up to there at most,
and does the same if a comma stands in its place. That is not so for lists, which go on at a comma;
but a call fails with a message where its arguments are not closed, and a brace that is matched at
all opens a list that is closed. So a part of a declaration that is matched up to a semicolon is
matched in the same way in a group of declarations. -/

namespace MiniC

open Grammar Rule

/-! ## Answers that agree -/

section

variable {α β α' β' : Type}

/-- Whether a computation has an answer that agrees with the one of another computation, if that
one has an answer. -/
def Echoes (R : α → β → Prop) (x : Except ParseFailure α) (y : Except ParseFailure β) : Prop :=
  ∀ a, x = .ok a → ∃ b, y = .ok b ∧ R a b

variable {R : α → β → Prop} {S : α' → β' → Prop}

theorem echoes_ok {a : α} {b : β} (h : R a b) : Echoes R (.ok a) (.ok b) := by
  rintro _ ⟨⟩
  exact ⟨b, rfl, h⟩

theorem echoes_error (failure : ParseFailure) (y : Except ParseFailure β) :
    Echoes R (.error failure) y := nofun

theorem Echoes.bind {x : Except ParseFailure α} {y : Except ParseFailure β}
    {f : α → Except ParseFailure α'} {g : β → Except ParseFailure β'} (hxy : Echoes R x y)
    (hfg : ∀ a b, R a b → Echoes S (f a) (g b)) : Echoes S (x >>= f) (y >>= g) := by
  intro a' h
  obtain ⟨a, rfl, ha⟩ := exists_of_bind_eq_ok h
  obtain ⟨b, rfl, hab⟩ := hxy a rfl
  exact hfg a b hab a' ha

theorem Echoes.ite {c c' : Bool} (hc : c = c') {x x' : Except ParseFailure α}
    {y y' : Except ParseFailure β} (h : c = true → Echoes R x y)
    (h' : c = false → Echoes R x' y') :
    Echoes R (if c then x else x') (if c' then y else y') := by
  subst hc
  cases c with
  | true => exact h rfl
  | false => exact h' rfl

end

/-- Whether two answers are the same up to positions: either nothing, or what begins `k` tokens
behind two places, for a `k` that is not greater than `n`. -/
inductive Tallies {α : Type} (bare : α → α) (place place' n : Nat) :
    Option (α × Nat) → Option (α × Nat) → Prop
  | none : Tallies bare place place' n none none
  | some {a a' : α} {k : Nat} (hk : k ≤ n) (h : bare a = bare a') :
    Tallies bare place place' n (some (a, place + k)) (some (a', place' + k))

theorem exists_of_tallies {α : Type} {bare : α → α} {place place' n next : Nat} {a : α}
    {answer : Option (α × Nat)} (h : Tallies bare place place' n (some (a, next)) answer) :
    ∃ k a', k ≤ n ∧ next = place + k ∧ answer = some (a', place' + k) ∧ bare a = bare a' := by
  cases h with
  | some hk hbare => exact ⟨_, _, hk, rfl, rfl, hbare⟩

/-! ## The same tokens at other places -/

/-- Whether a token ends the parts of a declaration. -/
def Token.isStop (t : Token) : Bool :=
  t.isPunctuator ";" || t.isPunctuator ","

/-- Whether `n` tokens are the same, up to positions, as those at another place of another text,
where a semicolon follows in the one text, and in the other one a semicolon or a comma; and whether
all braces among them open lists of initializers. -/
structure Region (tokens tokens' : Array Token) (place place' n : Nat) : Prop where
  inside : ∀ k < n, ∃ t t', tokens[place + k]? = some t ∧ tokens'[place' + k]? = some t' ∧
    t.bare = t'.bare
  semicolon : ∃ t, tokens[place + n]? = some t ∧ t.isPunctuator ";" = true
  stop : ∃ t, tokens'[place' + n]? = some t ∧ t.isStop = true
  opens : ∀ k < n, hasText tokens (place + k) "\x7b" = true →
    ∃ tree next, Matches Rule.table tokens initList (place + k) tree next

theorem Token.isStop_iff {t : Token} :
    t.isStop = true ↔ t.kind = .punctuator ∧ (t.text = ";" ∨ t.text = ",") := by
  simp only [isStop, isPunctuator, Bool.or_eq_true, Bool.and_eq_true, decide_eq_true_eq]
  tauto

theorem Inner.not_stop {accepts : Token → Bool} (h : Inner accepts) {t : Token}
    (ht : t.isStop = true) : accepts t = false := by
  obtain ⟨hkind, htext | htext⟩ := Token.isStop_iff.mp ht
  · exact h.closed t hkind (htext ▸ by decide)
  · exact h.closed t hkind (htext ▸ by decide)

namespace Region

variable {tokens tokens' : Array Token} {place place' n k : Nat}
  (h : Region tokens tokens' place place' n)

include h

theorem exists_stops : ∃ t t', tokens[place + n]? = some t ∧ tokens'[place' + n]? = some t' ∧
    t.isStop = true ∧ t'.isStop = true := by
  obtain ⟨t, ht, hsemicolon⟩ := h.semicolon
  obtain ⟨t', ht', hstop⟩ := h.stop
  exact ⟨t, t', ht, ht', by rw [Token.isStop, hsemicolon, Bool.true_or], hstop⟩

/-- A test of single tokens has the same outcome at both places, up to the end. -/
theorem token_cases {accepts : Token → Bool} (haccepts : Inner accepts) (hk : k ≤ n) :
    ∃ t t', tokens[place + k]? = some t ∧ tokens'[place' + k]? = some t' ∧
      accepts t = accepts t' ∧ (accepts t = true → k < n ∧ t.bare = t'.bare) := by
  rcases Nat.lt_or_eq_of_le hk with hlt | rfl
  · obtain ⟨t, t', ht, ht', hbare⟩ := h.inside k hlt
    refine ⟨t, t', ht, ht', ?_, fun _ => ⟨hlt, hbare⟩⟩
    rw [← haccepts.natural t, hbare, haccepts.natural t']
  · obtain ⟨t, t', ht, ht', hstop, hstop'⟩ := h.exists_stops
    refine ⟨t, t', ht, ht', ?_, fun haccept => ?_⟩
    · rw [haccepts.not_stop hstop, haccepts.not_stop hstop']
    · rw [haccepts.not_stop hstop] at haccept
      cases haccept

theorem hasText_cases {text : String} (htext : text ∉ barriers) (hk : k ≤ n) :
    hasText tokens (place + k) text = hasText tokens' (place' + k) text ∧
      (hasText tokens (place + k) text = true → k < n) := by
  have hinner : Inner fun t => decide (t.text = text) :=
    ⟨fun _ => rfl, fun t _ hmem => decide_eq_false fun heq => htext (heq ▸ hmem)⟩
  obtain ⟨t, t', ht, ht', hsame, hlt⟩ := h.token_cases hinner hk
  rw [hasText, hasText, ht, ht']
  exact ⟨hsame, fun haccept => (hlt haccept).1⟩

theorem hasOperator_cases {text : String} (htext : text ∉ barriers) (hk : k ≤ n) :
    hasOperator tokens (place + k) text = hasOperator tokens' (place' + k) text ∧
      (hasOperator tokens (place + k) text = true → k < n) := by
  have hinner : Inner fun t => decide (t.text = text) && !t.isLiteral := by
    refine ⟨fun _ => rfl, fun t _ hmem => ?_⟩
    have hne : t.text ≠ text := fun heq => htext (heq ▸ hmem)
    rw [decide_eq_false hne, Bool.false_and]
  obtain ⟨t, t', ht, ht', hsame, hlt⟩ := h.token_cases hinner hk
  rw [hasOperator, hasOperator, ht, ht']
  exact ⟨hsame, fun haccept => (hlt haccept).1⟩

theorem hasText_of_lt (text : String) (hk : k < n) :
    hasText tokens (place + k) text = hasText tokens' (place' + k) text := by
  obtain ⟨t, t', ht, ht', hbare⟩ := h.inside k hk
  rw [hasText, hasText, ht, ht']
  exact congrArg (fun s => decide (s = text)) (Token.text_eq_of_bare hbare)

/-- No list goes on at the semicolon. -/
theorem not_hasText_comma : hasText tokens (place + n) "," = false := by
  obtain ⟨t, ht, hsemicolon⟩ := h.semicolon
  rw [Token.isPunctuator, Bool.and_eq_true, decide_eq_true_eq, decide_eq_true_eq] at hsemicolon
  rw [hasText, ht]
  exact decide_eq_false fun htext => by simp [hsemicolon.2] at htext

/-- No list begins at the end. -/
theorem not_hasText_brace : hasText tokens (place + n) "\x7b" = false ∧
    hasText tokens' (place' + n) "\x7b" = false := by
  obtain ⟨t, t', ht, ht', hstop, hstop'⟩ := h.exists_stops
  rw [hasText, hasText, ht, ht']
  refine ⟨decide_eq_false fun htext => ?_, decide_eq_false fun htext => ?_⟩
  · obtain ⟨-, hstop | hstop⟩ := Token.isStop_iff.mp hstop <;> simp [htext] at hstop
  · obtain ⟨-, hstop | hstop⟩ := Token.isStop_iff.mp hstop' <;> simp [htext] at hstop

/-- What closes a block stands at both places, or at none of them. -/
theorem echoes_closed {closing : String} (hclosing : closing ∉ barriers) (label : Label)
    {answer answer' : Match} : Tallies Tree.bare place place' n answer answer' →
    Echoes (Tallies Tree.bare place place' n)
      (match answer with
        | none => pure none
        | some (tree, next) =>
          if hasText tokens next closing then pure (some (.node label [tree], next + 1))
          else pure none)
      (match answer' with
        | none => pure none
        | some (tree, next) =>
          if hasText tokens' next closing then pure (some (.node label [tree], next + 1))
          else pure none) := by
  intro hanswer
  cases hanswer with
  | none => exact echoes_ok .none
  | some hk hbare =>
    obtain ⟨hsame, hlt⟩ := h.hasText_cases hclosing hk
    refine .ite hsame (fun hclose => ?_) fun _ => echoes_ok .none
    exact echoes_ok (.some (k := _ + 1) (hlt hclose) (by simp [hbare]))

/-- At the end nothing stands that could close a list. -/
theorem not_closed {accepts : Token → Bool} (haccepts : Inner accepts) {message : String}
    (fuel : Nat) {earlier : List Tree} {answer : Option (List Tree × Nat)} :
    plainSteps Rule.table tokens fuel [(Grammar.token accepts).orFail message] earlier (place + n) ≠
      .ok answer := by
  intro hanswer
  cases fuel with
  | zero => cases hanswer
  | succ fuel =>
    obtain ⟨found, hfound, hrest⟩ := exists_of_bind_eq_ok hanswer
    match found with
    | none => cases hrest
    | some (tree, next) =>
      cases matchesBy_of_plain hfound with
      | token htoken haccept =>
        obtain ⟨t, t', ht, -, hstop, -⟩ := h.exists_stops
        cases ht.symm.trans htoken
        exact absurd (haccepts.not_stop hstop) (by rw [haccept]; nofun)

end Region

/-! ## The same answers at other places -/

section

variable {tokens tokens' : Array Token} {place place' n : Nat}

mutual

/-- A confined grammar has the same answer at both places. -/
theorem echoes_plain (h : Region tokens tokens' place place' n) (fuel : Nat)
    {g : G} (hg : Confined g) {k : Nat} (hk : k ≤ n) :
    Echoes (Tallies Tree.bare place place' n) (plain Rule.table tokens fuel g (place + k))
      (plain Rule.table tokens' fuel g (place' + k)) := by
  cases fuel with
  | zero => exact echoes_error _ _
  | succ fuel =>
    cases hg with
    | token haccepts =>
      obtain ⟨t, t', ht, ht', hsame, hlt⟩ := h.token_cases haccepts hk
      rw [plain, plain, ht, ht']
      refine .ite hsame (fun haccept => ?_) fun _ => echoes_ok .none
      obtain ⟨hlt, hbare⟩ := hlt haccept
      refine echoes_ok (.some (k := k + 1) hlt ?_)
      rw [Tree.bare_leaf, Tree.bare_leaf, hbare]
    | empty => exact echoes_ok (.some hk rfl)
    | rule hinner => exact echoes_plain h fuel (confined_grammar hinner) hk
    | choice hfirst hsecond =>
      rw [plain, plain]
      refine (echoes_plain h fuel hfirst hk).bind fun answer answer' hanswer => ?_
      cases hanswer with
      | none => exact echoes_plain h fuel hsecond hk
      | some hk' hbare => exact echoes_ok (.some hk' hbare)
    | sequence hsteps hf =>
      rw [plain, plain]
      refine (echoes_plainSteps h fuel hsteps rfl hk).bind fun answer answer' hanswer => ?_
      cases hanswer with
      | none => exact echoes_ok .none
      | some hk' hbare => exact echoes_ok (.some hk' (by rw [hf, hf, hbare]))
    | fold hfirst hother hmerge =>
      rw [plain, plain]
      refine (echoes_plain h fuel hfirst hk).bind fun answer answer' hanswer => ?_
      cases hanswer with
      | none => exact echoes_ok .none
      | some hk' hbare => exact echoes_plainFold h fuel hother hmerge hbare hk'
    | @block opening closing inner label hopening hclosing hinner =>
      obtain ⟨hsame, hlt⟩ := h.hasText_cases hopening hk
      rw [plain, plain]
      refine .ite hsame (fun hopen => ?_) fun _ => echoes_ok .none
      exact (echoes_plain h fuel hinner (k := k + 1) (hlt hopen)).bind fun answer answer' hanswer =>
        h.echoes_closed hclosing label hanswer
    | initList =>
      rcases Nat.lt_or_eq_of_le hk with hlt | rfl
      · rw [initList, plain, plain, ← h.hasText_of_lt _ hlt]
        split
        next hopen =>
          -- a brace that is matched opens a list that is closed
          have hbrace : "\x7d" ∉ barriers := by decide
          obtain ⟨tree, next, more, hmatch⟩ := h.opens k hlt hopen
          intro answer hanswer
          have hwhole : plain Rule.table tokens (fuel + 1) initList (place + k) = .ok answer := by
            rw [initList, plain, if_pos hopen]
            exact hanswer
          rw [plain_unique hmatch (by rw [hwhole]; nofun)] at hwhole
          cases hwhole
          have hclosed : ∀ tree, plain Rule.table tokens fuel (.items (.rule .expression)
              .initValues (some ",") false) (place + (k + 1)) ≠ .ok (some (tree, place + n)) := by
            intro tree htree
            obtain ⟨found, hfound, hrest⟩ := exists_of_bind_eq_ok hanswer
            cases hfound.symm.trans htree
            dsimp only at hrest
            split at hrest
            next hclose =>
              obtain ⟨-, hinside⟩ := h.hasText_cases hbrace (Nat.le_refl n)
              exact Nat.lt_irrefl n (hinside hclose)
            · cases hrest
          have hinner := echoes_plainList h fuel (.rule rfl) hlt hclosed
          exact hinner.bind (fun answer answer' h' => h.echoes_closed hbrace .initList h') _ hanswer
        · exact echoes_ok .none
      · obtain ⟨hclosed, hclosed'⟩ := h.not_hasText_brace
        rw [initList, plain, plain, hclosed, hclosed']
        exact echoes_ok .none
    | prefixed hoperator hoperand =>
      obtain ⟨hsame, hlt⟩ := h.hasOperator_cases hoperator hk
      rw [plain, plain]
      refine .ite hsame (fun hopen => ?_) fun _ => echoes_ok .none
      refine (echoes_plain h fuel hoperand (k := k + 1) (hlt hopen)).bind fun _ _ hanswer => ?_
      cases hanswer with
      | none => exact echoes_ok .none
      | some hk' hbare => exact echoes_ok (.some hk' (by simp [hbare]))
    | suffixed hoperator hoperand =>
      rw [plain, plain]
      refine (echoes_plain h fuel hoperand hk).bind fun answer answer' hanswer => ?_
      cases hanswer with
      | none => exact echoes_ok .none
      | some hk' hbare =>
        obtain ⟨hsame, hlt⟩ := h.hasOperator_cases hoperator hk'
        refine .ite hsame (fun hclose => ?_) fun _ => echoes_ok .none
        exact echoes_ok (.some (k := _ + 1) (hlt hclose) (by simp [hbare]))

theorem echoes_plainSteps (h : Region tokens tokens' place place' n) (fuel : Nat)
    {steps : List (Step G)} (hsteps : ConfinedSteps steps)
    {earlier earlier' : List Tree} (hearlier : earlier.map Tree.bare = earlier'.map Tree.bare)
    {k : Nat} (hk : k ≤ n) :
    Echoes (Tallies (List.map Tree.bare) place place' n)
      (plainSteps Rule.table tokens fuel steps earlier (place + k))
      (plainSteps Rule.table tokens' fuel steps earlier' (place' + k)) := by
  cases fuel with
  | zero => exact echoes_error _ _
  | succ fuel =>
    cases hsteps with
    | nil => exact echoes_ok (.some hk (by rw [List.map_reverse, List.map_reverse, hearlier]))
    | cons hstep hrest =>
      rw [plainSteps, plainSteps]
      refine (echoes_plain h fuel hstep hk).bind fun answer answer' hanswer => ?_
      cases hanswer with
      | none =>
        dsimp only
        split
        · exact echoes_ok .none
        · exact echoes_error _ _
      | some hk' hbare =>
        exact echoes_plainSteps h fuel hrest (by rw [List.map_cons, List.map_cons, hbare, hearlier])
          hk'
    | @listed element label accepts message helement hclosing =>
      by_cases hends : ∃ tree, plain Rule.table tokens fuel (.items element label (some ",") true)
          (place + k) = .ok (some (tree, place + n))
      · -- what closes the list does not follow, and the parse fails
        obtain ⟨tree, htree⟩ := hends
        intro answer hanswer
        obtain ⟨found, hfound, hrest⟩ := exists_of_bind_eq_ok hanswer
        cases hfound.symm.trans htree
        exact absurd hrest (h.not_closed hclosing fuel)
      · rw [plainSteps, plainSteps]
        refine (echoes_plainList h fuel helement hk (not_exists.mp hends)).bind
          fun answer answer' hanswer => ?_
        cases hanswer with
        | none => exact echoes_ok .none
        | some hk' hbare =>
          exact echoes_plainSteps h fuel (.cons (.token hclosing) .nil)
            (by rw [List.map_cons, List.map_cons, hbare, hearlier]) hk'

theorem echoes_plainFold (h : Region tokens tokens' place place' n) (fuel : Nat)
    {other : G} (hother : Confined other)
    {merge : Tree → Tree → Tree} (hmerge : NaturalPair merge) {isAnswer : Bool} {tree tree' : Tree}
    (htree : tree.bare = tree'.bare) {k : Nat} (hk : k ≤ n) :
    Echoes (Tallies Tree.bare place place' n)
      (plainFold Rule.table tokens fuel other merge isAnswer tree (place + k))
      (plainFold Rule.table tokens' fuel other merge isAnswer tree' (place' + k)) := by
  cases fuel with
  | zero => exact echoes_error _ _
  | succ fuel =>
    rw [plainFold, plainFold]
    refine (echoes_plain h fuel hother hk).bind fun answer answer' hanswer => ?_
    cases hanswer with
    | none => exact .ite rfl (fun _ => echoes_ok (.some hk htree)) fun _ => echoes_ok .none
    | some hk' hbare =>
      exact echoes_plainFold h fuel hother hmerge (by rw [hmerge, hmerge, htree, hbare]) hk'

/-- A list is the same at both places, unless it goes on up to the end. -/
theorem echoes_plainList (h : Region tokens tokens' place place' n) (fuel : Nat)
    {element : G} (helement : Confined element) {label : Label}
    {canBeEmpty : Bool} {k : Nat} (hk : k ≤ n)
    (hends : ∀ tree, plain Rule.table tokens fuel (.items element label (some ",") canBeEmpty)
      (place + k) ≠ .ok (some (tree, place + n))) :
    Echoes (Tallies Tree.bare place place' n)
      (plain Rule.table tokens fuel (.items element label (some ",") canBeEmpty) (place + k))
      (plain Rule.table tokens' fuel (.items element label (some ",") canBeEmpty)
        (place' + k)) := by
  cases fuel with
  | zero => exact echoes_error _ _
  | succ fuel =>
    intro answer hanswer
    obtain ⟨found, hfound, hrest⟩ := exists_of_bind_eq_ok hanswer
    have helements := echoes_plainItems h fuel helement (rfl : [].map Tree.bare = [].map Tree.bare)
      hk fun trees hne htrees => by
        cases hfound.symm.trans htrees
        dsimp only at hrest
        rw [List.isEmpty_eq_false_iff.mpr hne, Bool.false_and, if_neg Bool.false_ne_true] at hrest
        cases hrest
        exact hends _ hanswer
    obtain ⟨found', hfound', htallies⟩ := helements found hfound
    rw [plain, hfound']
    cases htallies with
    | none =>
      cases hrest
      exact ⟨_, rfl, .none⟩
    | @some trees trees' k' hk' hbare =>
      have hempty : trees.isEmpty = trees'.isEmpty := by
        rw [← List.isEmpty_map, hbare, List.isEmpty_map]
      refine Echoes.ite (by rw [hempty]) (fun _ => echoes_ok .none)
        (fun _ => echoes_ok (.some hk' ?_)) answer hrest
      rw [Tree.bare_node, Tree.bare_node, hbare]

/-- The elements of a list are the same at both places, unless it goes on up to the end. -/
theorem echoes_plainItems (h : Region tokens tokens' place place' n) (fuel : Nat)
    {element : G} (helement : Confined element)
    {earlier earlier' : List Tree} (hearlier : earlier.map Tree.bare = earlier'.map Tree.bare)
    {k : Nat} (hk : k ≤ n)
    (hends : ∀ trees, trees ≠ [] →
      plainItems Rule.table tokens fuel element (some ",") earlier (place + k) ≠
        .ok (some (trees, place + n))) :
    Echoes (Tallies (List.map Tree.bare) place place' n)
      (plainItems Rule.table tokens fuel element (some ",") earlier (place + k))
      (plainItems Rule.table tokens' fuel element (some ",") earlier' (place' + k)) := by
  cases fuel with
  | zero => exact echoes_error _ _
  | succ fuel =>
    intro answer hanswer
    obtain ⟨found, hfound, hrest⟩ := exists_of_bind_eq_ok hanswer
    obtain ⟨found', hfound', htallies⟩ := echoes_plain h fuel helement hk found hfound
    rw [plainItems, hfound']
    cases htallies with
    | none =>
      have hempty : earlier.isEmpty = earlier'.isEmpty := by
        rw [← List.isEmpty_map, hearlier, List.isEmpty_map]
      refine Echoes.ite (by rw [hempty]) (fun _ => echoes_ok .none)
        (fun _ => echoes_ok (.some hk ?_)) answer hrest
      rw [List.map_reverse, List.map_reverse, hearlier]
    | @some tree tree' k' hk' hbare =>
      have hall : (tree :: earlier).map Tree.bare = (tree' :: earlier').map Tree.bare := by
        rw [List.map_cons, List.map_cons, hbare, hearlier]
      rcases Nat.lt_or_eq_of_le hk' with hlt | rfl
      · refine Echoes.ite (h.hasText_of_lt "," hlt) (fun htext => ?_)
          (fun _ => echoes_ok (.some hk' ?_)) answer hrest
        · have hgoes : plainItems Rule.table tokens (fuel + 1) element (some ",") earlier
              (place + k) = plainItems Rule.table tokens fuel element (some ",") (tree :: earlier)
                (place + (k' + 1)) := by
            rw [plainItems, hfound]
            exact if_pos htext
          exact echoes_plainItems h fuel helement hall hlt (hgoes ▸ hends)
        · rw [List.map_reverse, List.map_reverse, hall]
      · -- the list would go on up to the end
        dsimp only at hrest
        rw [h.not_hasText_comma] at hrest
        cases hrest
        exact absurd hanswer (hends _ (by simp))

end

end

end MiniC
