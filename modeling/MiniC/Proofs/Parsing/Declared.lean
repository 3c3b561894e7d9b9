import MiniC.Proofs.Parsing.Regions
import MiniC.Proofs.Parsing.TypeNames

set_option autoImplicit false

/-! # Single declarations

A declaration of one variable that can be parsed tells how its declarator is matched wherever else
it stands in front of a semicolon or a comma: its dimensions and its initializer are the same,
whatever stands in front of them and behind them. -/

namespace MiniC

open Grammar Rule

/-! ## Declarators -/

/-- The tokens of a declarator: its pointer marks, its name, and its dimensions and initializer. -/
structure DeclaratorTokens where
  marks : List Token
  name : Token
  rest : List Token
  isMark : ∀ t ∈ marks, t.isMark = true
  isIdentifier : name.isIdentifier = true

namespace DeclaratorTokens

/-- All tokens of a declarator. -/
def all (d : DeclaratorTokens) : List Token :=
  d.marks ++ d.name :: d.rest

theorem append_all (base : List Token) (d : DeclaratorTokens) (rest : List Token) :
    base ++ d.all ++ rest = base ++ d.marks ++ d.name :: (d.rest ++ rest) := by
  simp [all]

/-- Whether the part of a declarator behind its name is matched wherever it stands in front of the
end of a declarator, so that the declaration of the declarator alone has the given tree. -/
def Makes (base : List Token) (d : DeclaratorTokens) (tree : Tree) : Prop :=
  ∀ (tokens : Array Token) (place : Nat), Reads tokens place d.rest →
    (∃ t, tokens[place + d.rest.length]? = some t ∧ t.isStop = true) → ∃ dims init mid,
      GivesItems Rule.table tokens (.rule .arrayDim) none [] place (some (dims, mid)) ∧
      Gives Rule.table tokens (.rule .initializer) mid (some (init, place + d.rest.length)) ∧
      tree.bare = (withInitializer (.node .variableDecl
        (Tree.ofTypeTokens (base ++ d.marks) :: .leaf d.name 0 :: dims)) init).bare

end DeclaratorTokens

/-! ## Declarations of one variable -/

/-- Whether a tree is the declaration of one variable. -/
def Tree.isVariable : Tree → Bool
  | .node label _ => label = .variableDecl || label = .variableInit
  | _ => false

theorem Tree.isVariable_bare (t : Tree) : t.bare.isVariable = t.isVariable := by
  cases t with
  | node label children =>
    rw [bare_node]
    rfl
  | group children =>
    rw [bare_group]
    rfl
  | _ => rfl

theorem Tree.exists_of_bare_eq_node {t : Tree} {label : Label} {children : List Tree}
    (h : t.bare = .node label children) :
    ∃ children', t = .node label children' ∧ children'.map bare = children := by
  cases t with
  | node label' children' =>
    rw [bare_node] at h
    cases h
    exact ⟨children', rfl, rfl⟩
  | group children' =>
    rw [bare_group] at h
    cases h
  | _ => cases h

section

variable {tokens : Array Token} {place next : Nat} {tree : Tree}

theorem matchesBy_of_matches {g : G} (h : Matches Rule.table tokens g place tree next) :
    MatchesBy Rule.table tokens (Matches Rule.table tokens) g place tree next := by
  obtain ⟨fuel, hplain⟩ := h
  refine (matchesBy_of_plain hplain).imp fun g place tree next hpart => ?_
  obtain ⟨less, -, hless⟩ := hpart
  exact ⟨less, hless⟩

theorem matches_of_rule {name : Rule} (h : Matches Rule.table tokens (.rule name) place tree next) :
    Matches Rule.table tokens name.grammar place tree next := by
  cases matchesBy_of_matches h with
  | rule hbody htree =>
    cases hbody
    exact htree

theorem matches_of_choice {first second : G}
    (h : Matches Rule.table tokens (.choice first second) place tree next) :
    Matches Rule.table tokens first place tree next ∨
      Matches Rule.table tokens second place tree next := by
  cases matchesBy_of_matches h with
  | first htree => exact .inl htree
  | second htree => exact .inr htree

theorem exists_of_pair {first second : Step G} {f : List Tree → Tree}
    (h : Matches Rule.table tokens (seq [first, second] f) place tree next) :
    ∃ left right mid, Matches Rule.table tokens first.grammar place left mid ∧
      Matches Rule.table tokens second.grammar mid right next ∧ tree = f [left, right] := by
  cases matchesBy_of_matches h with
  | sequence hsteps hmerge =>
    cases hmerge
    cases hsteps with
    | cons hfirst hsteps =>
      cases hsteps with
      | cons hsecond hsteps =>
        cases hsteps
        exact ⟨_, _, _, hfirst, hsecond, rfl⟩

theorem not_isVariable_of_seq {steps : List (Step G)} {f : List Tree → Tree}
    (hf : ∀ trees, (f trees).isVariable = false)
    (h : Matches Rule.table tokens (seq steps f) place tree next) : tree.isVariable = false := by
  cases matchesBy_of_matches h with
  | sequence _ hmerge =>
    cases hmerge
    exact hf _

/-- A further declarator of a declaration group. -/
def furtherDeclarator : G :=
  seq [(punct ",").step, (Grammar.rule pointerMarks).step, identifier.step,
      (Grammar.rule arrayDims).step, (Grammar.rule initializer).step]
    fun trees => .group (trees.drop 1)

theorem not_isVariable_addDeclarator {piece : Tree} (tree : Tree)
    (h : Matches Rule.table tokens furtherDeclarator place piece next) :
    (addDeclarator tree piece).isVariable = false := by
  cases matchesBy_of_matches h with
  | sequence hsteps hmerge =>
    cases hmerge
    cases hsteps with
    | cons _ hsteps => cases hsteps with
      | cons _ hsteps => cases hsteps with
        | cons _ hsteps => cases hsteps with
          | cons _ hsteps => cases hsteps with
            | cons _ hsteps => cases hsteps with
              | nil => rfl

/-- Where a further declarator has been found there is more than one variable. -/
theorem not_isVariable_of_matchesFold {result : Tree} (htree : tree.isVariable = false)
    (h : MatchesFold (Matches Rule.table tokens) furtherDeclarator addDeclarator tree place result
      next) : result.isVariable = false := by
  induction h with
  | done => exact htree
  | more hpiece _ ih => exact ih (not_isVariable_addDeclarator _ hpiece)

/-- Where one variable is declared, its declaration and its initializer are matched. -/
theorem exists_of_variableCreation (hvariable : tree.isVariable = true)
    (h : Matches Rule.table tokens (.rule .variableCreation) place tree next) :
    ∃ decl init mid, Matches Rule.table tokens (.rule .variableDecl) place decl mid ∧
      Matches Rule.table tokens (.rule .initializer) mid init next ∧
      tree = withInitializer decl init := by
  cases matchesBy_of_matches (matches_of_rule h) with
  | alone hfirst => exact exists_of_pair hfirst
  | fold _ hpiece hrest =>
    rw [not_isVariable_of_matchesFold (not_isVariable_addDeclarator _ hpiece) hrest] at hvariable
    cases hvariable

/-- What a program consists of. -/
def programItem : G :=
  .oneOf (.rule .structDecl) [.rule .functionDecl, .rule .functionPrototype,
    seq [(Grammar.rule variableCreation).step,
      (punct ";").orFail "; missed after variable creating."] (pick 0), directive]

/-- The declaration of one variable in a program ends at a semicolon. -/
theorem exists_of_programItem (hvariable : tree.isVariable = true)
    (h : Matches Rule.table tokens programItem place tree next) :
    ∃ last, Matches Rule.table tokens (.rule .variableCreation) place tree last ∧
      next = last + 1 ∧ ∃ t, tokens[last]? = some t ∧ t.isPunctuator ";" = true := by
  have hnot : ∀ {name : Rule}, (∀ tree, Matches Rule.table tokens name.grammar place tree next →
      tree.isVariable = false) → ¬ Matches Rule.table tokens (.rule name) place tree next := by
    intro name hname hmatch
    rw [hname tree (matches_of_rule hmatch)] at hvariable
    cases hvariable
  rcases matches_of_choice h with h | h
  · rcases matches_of_choice h with h | h
    · rcases matches_of_choice h with h | h
      · rcases matches_of_choice h with h | h
        · exact absurd h (hnot fun _ => not_isVariable_of_seq fun _ => rfl)
        · exact absurd h (hnot fun _ => not_isVariable_of_seq fun _ => rfl)
      · exact absurd h (hnot fun _ => not_isVariable_of_seq fun _ => rfl)
    · obtain ⟨_, semicolon, last, hcreation, hsemicolon, rfl⟩ := exists_of_pair h
      cases matchesBy_of_matches hsemicolon with
      | token ht haccepts => exact ⟨last, hcreation, rfl, _, ht, haccepts⟩
  · cases matchesBy_of_matches h with
    | token => cases hvariable

/-- Where the declaration of one variable is the whole program, its parts are matched from the first
token on, and a semicolon is the last token. -/
theorem exists_of_single {tokens : List Token} {tree : Tree} (hvariable : tree.isVariable = true)
    (h : parseTree tokens = .ok (.node .program [tree])) :
    ∃ decl init mid last, Matches Rule.table tokens.toArray (.rule .variableDecl) 0 decl mid ∧
      Matches Rule.table tokens.toArray (.rule .initializer) mid init last ∧
      tree.bare = (withInitializer decl init).bare ∧ tokens.length = last + 1 ∧
      ∃ t, tokens.toArray[last]? = some t ∧ t.isPunctuator ";" = true := by
  obtain ⟨matched, hmatched, hplain⟩ := exists_of_parseTree h
  obtain ⟨items, rfl⟩ := exists_items_of_matches hplain
  have hitems : items.map Tree.bare = [tree.bare] := by
    have hbare := congrArg Tree.bare hmatched
    rw [Tree.bare_numbered, Tree.bare_node, Tree.bare_node] at hbare
    exact (Tree.node.inj hbare).2.symm
  obtain ⟨item, rfl, hitem⟩ := List.map_eq_singleton_iff.mp hitems
  rw [← Tree.isVariable_bare, ← hitem, Tree.isVariable_bare] at hvariable
  cases matchesBy_of_matches (matches_of_rule ⟨_, hplain⟩) with
  | items hall _ =>
    have hmatch : Matches Rule.table tokens.toArray programItem 0 item tokens.length := by
      cases hall with
      | last hitem => exact hitem
      | more hitem hseparator hrest =>
        cases hseparator
        cases hrest
        exact hitem
    obtain ⟨last, hcreation, hlast, hsemicolon⟩ := exists_of_programItem hvariable hmatch
    obtain ⟨decl, init, mid, hdecl, hinit, rfl⟩ := exists_of_variableCreation hvariable hcreation
    exact ⟨decl, init, mid, last, hdecl, hinit, hitem.symm, hlast, hsemicolon⟩

/-! ## The declarator of a single declaration -/

/-- The type and the name of a declaration. -/
def declHead : G :=
  seq [(Grammar.rule typeName).step, identifier.step] (nodeOf .variableDecl [0, 1])

theorem gives_declHead {base rest : List Token} {d : DeclaratorTokens} (hbase : IsBase base)
    (h : Reads tokens place (base ++ d.marks ++ d.name :: rest)) :
    ∃ words name, words.map Token.bare = (base ++ d.marks).map Token.bare ∧
      name.bare = d.name.bare ∧ Gives Rule.table tokens declHead place
        (some (.node .variableDecl [Tree.ofTypeTokens words, .leaf name 0],
          place + (base ++ d.marks).length + 1)) := by
  obtain ⟨words, hwords, htype⟩ := gives_typeName hbase d.isMark d.isIdentifier h
  obtain ⟨name, hname, hgives⟩ := gives_token_of_reads Token.isIdentifier (fun _ => rfl)
    (reads_append.mp h).2 d.isIdentifier
  have hsteps : GivesSteps Rule.table tokens [(Grammar.rule typeName).step, identifier.step] []
      place (some ([Tree.ofTypeTokens words, .leaf name 0],
        place + (base ++ d.marks).length + 1)) := .cons htype (.cons hgives givesSteps_nil)
  exact ⟨words, name, hwords, hname, hsteps.sequence rfl⟩

/-- Behind its type and its name, a declaration goes on with its dimensions. -/
theorem exists_of_variableDecl {head decl : Tree} {start : Nat}
    (hhead : Gives Rule.table tokens declHead place (some (head, start)))
    (h : Matches Rule.table tokens (.rule .variableDecl) place decl next) :
    ∃ fuel, plainFold Rule.table tokens fuel (.rule .arrayDim) addDim true head start =
      .ok (some (decl, next)) := by
  obtain ⟨fuel, hplain⟩ := matches_of_rule h
  cases fuel with
  | zero => cases hplain
  | succ fuel =>
    obtain ⟨answer, hfirst, hrest⟩ := exists_of_bind_eq_ok hplain
    cases (gives_of_plain hfirst).unique hhead
    exact ⟨fuel, hrest⟩

/-- Dimensions are added to a declaration one by one. -/
theorem plainFold_addDim (tokens : Array Token) (fuel : Nat) (g : G) (front earlier : List Tree)
    (place : Nat) :
    plainFold Rule.table tokens fuel g addDim true
        (.node .variableDecl (front ++ earlier.reverse)) place =
      (plainItems Rule.table tokens fuel g none earlier place).map fun answer =>
        answer.map fun found => (.node .variableDecl (front ++ found.1), found.2) := by
  induction fuel generalizing earlier place with
  | zero => rfl
  | succ fuel ih =>
    rw [plainFold, plainItems]
    cases plain Rule.table tokens fuel g place with
    | error failure => rfl
    | ok answer =>
      cases answer with
      | none => rfl
      | some found =>
        obtain ⟨dim, next⟩ := found
        have hmore := ih (dim :: earlier) next
        rw [List.reverse_cons, ← List.append_assoc] at hmore
        exact hmore

theorem givesFold_addDim {dims : List Tree} (front : List Tree)
    (h : GivesItems Rule.table tokens (.rule .arrayDim) none [] place (some (dims, next))) :
    GivesFold Rule.table tokens (.rule .arrayDim) addDim true (.node .variableDecl front) place
      (some (.node .variableDecl (front ++ dims), next)) := by
  refine h.mono fun fuel hitems => ?_
  have hfold := plainFold_addDim tokens fuel (.rule .arrayDim) front [] place
  rw [List.reverse_nil, List.append_nil, hitems] at hfold
  exact hfold

theorem exists_dims {fuel : Nat} {front : List Tree} {decl : Tree}
    (h : plainFold Rule.table tokens fuel (.rule .arrayDim) addDim true (.node .variableDecl front)
      place = .ok (some (decl, next))) :
    ∃ dims, GivesItems Rule.table tokens (.rule .arrayDim) none [] place (some (dims, next)) ∧
      decl = .node .variableDecl (front ++ dims) := by
  have hfold := plainFold_addDim tokens fuel (.rule .arrayDim) front [] place
  rw [List.reverse_nil, List.append_nil, h] at hfold
  cases hitems : plainItems Rule.table tokens fuel (.rule .arrayDim) none [] place with
  | error failure =>
    rw [hitems] at hfold
    cases hfold
  | ok answer =>
    rw [hitems] at hfold
    match answer with
    | none => cases hfold
    | some (dims, last) =>
      cases hfold
      exact ⟨dims, givesItems_of_plainItems hitems, rfl⟩

theorem opens_of_dims (hproper : ∀ t ∈ tokens, t.IsProper) {fuel : Nat} {head decl : Tree}
    (h : plainFold Rule.table tokens fuel (.rule .arrayDim) addDim true head place =
      .ok (some (decl, next))) : Opens tokens place next := by
  have hpiece : ∀ (place : Nat) (tree : Tree) (next : Nat),
      Within Rule.table tokens fuel (.rule .arrayDim) place tree next →
        Opens tokens place next := by
    rintro place tree next ⟨less, -, hplain⟩
    exact opens_of_plain hproper (.rule rfl) hplain
  rcases matchesFold_of_plainFold h with ⟨-, -, rfl⟩ | ⟨piece, mid, hfirst, hrest⟩
  · exact opens_self tokens _
  · exact (hpiece _ _ _ hfirst).append (opens_of_matchesFold hpiece hrest)

theorem region_of_reads {words : Array Token} {start place : Nat} {rest : List Token}
    (h : Reads words start rest) (h' : Reads tokens place rest)
    (hsemicolon : ∃ t, words[start + rest.length]? = some t ∧ t.isPunctuator ";" = true)
    (hstop : ∃ t, tokens[place + rest.length]? = some t ∧ t.isStop = true)
    (hopens : Opens words start (start + rest.length)) :
    Region words tokens start place rest.length where
  inside k hk := by
    obtain ⟨t, ht⟩ : ∃ t, rest[k]? = some t := ⟨rest[k], List.getElem?_eq_getElem hk⟩
    obtain ⟨u, hu, hbare⟩ := h.get ht
    obtain ⟨u', hu', hbare'⟩ := h'.get ht
    exact ⟨u, u', hu, hu', hbare.trans hbare'.symm⟩
  semicolon := hsemicolon
  stop := hstop
  opens k hk := hopens _ (Nat.le_add_right start k) (Nat.add_lt_add_left hk start)

/-- A declaration of one variable that can be parsed tells what its declarator makes. -/
theorem makes_of_single {base words : List Token} {d : DeclaratorTokens} {semicolon : Token}
    (hbase : IsBase base) (hproper : ∀ t ∈ words, t.IsProper)
    (hwords : words.map Token.bare = (base ++ d.all ++ [semicolon]).map Token.bare)
    (hvariable : tree.isVariable = true)
    (h : parseTree words = .ok (.node .program [tree])) : d.Makes base tree := by
  obtain ⟨decl, init, mid, last, hdecl, hinit, htree, hlength, hsemicolon⟩ :=
    exists_of_single hvariable h
  rw [DeclaratorTokens.append_all] at hwords
  have hreads : Reads words.toArray 0 (base ++ d.marks ++ d.name :: (d.rest ++ [semicolon])) :=
    reads_toArray hwords
  obtain ⟨type, name, htype, hname, hhead⟩ := gives_declHead hbase hreads
  set start := 0 + (base ++ d.marks).length + 1 with hstart
  obtain rfl : last = start + d.rest.length := by
    have hall := congrArg List.length hwords
    rw [List.length_map, hlength] at hall
    simp at hall hstart
    omega
  have hrest : Reads words.toArray start d.rest :=
    (reads_append.mp (reads_append.mp hreads).2.2).1
  obtain ⟨fuel, hfold⟩ := exists_of_variableDecl hhead hdecl
  obtain ⟨fuel', hinit⟩ := hinit
  have hknown : ∀ t ∈ words.toArray, t.IsProper := fun t ht => hproper t (List.mem_toArray.mp ht)
  have hopens : Opens words.toArray start (start + d.rest.length) :=
    (opens_of_dims hknown hfold).append (opens_of_plain hknown (.rule rfl) hinit)
  -- from here on the parse goes on in the same way at the other place
  intro tokens place hplace hstop
  have hregion := region_of_reads hrest hplace hsemicolon hstop hopens
  have hheads : (Tree.node .variableDecl [Tree.ofTypeTokens type, .leaf name 0]).bare =
      (Tree.node .variableDecl [Tree.ofTypeTokens (base ++ d.marks), .leaf d.name 0]).bare := by
    simp [Tree.bare_ofTypeTokens, htype, hname]
  obtain ⟨answer, hfold', htallies⟩ := echoes_plainFold hregion fuel (.rule rfl) naturalPair_addDim
    hheads (Nat.zero_le _) _ hfold
  obtain ⟨k, decl', hk, rfl, rfl, hdecls⟩ := exists_of_tallies htallies
  obtain ⟨answer, hinit', htallies⟩ := echoes_plain hregion fuel' (.rule rfl) hk _ hinit
  obtain ⟨k', init', -, hsame, rfl, hinits⟩ := exists_of_tallies htallies
  obtain rfl := Nat.add_left_cancel hsame
  obtain ⟨dims, hdims, rfl⟩ := exists_dims hfold'
  refine ⟨dims, init', place + k, hdims, gives_of_plain hinit', ?_⟩
  rw [htree, naturalPair_withInitializer, hdecls, hinits, ← naturalPair_withInitializer]
  rfl

end

end MiniC
