import Mathlib.Data.List.Forall2
import MiniC.Proofs.Parsing.Declared

set_option autoImplicit false

/-! # Declaration groups

A declaration group means the separate declarations of its declarators. The first declarator is read
with a type name that takes its pointer marks, the others are read without a type, and the base of
their type is what stands in the first type in front of the first star; so marks of one declarator
do not get to another one. -/

namespace MiniC

open Grammar Rule

/-- The tokens of the declarators of a group behind the first one, each with the comma in front of
it. -/
def furtherTokens (others : List (Token × DeclaratorTokens)) : List Token :=
  others.flatMap fun (comma, d) => comma :: d.all

/-- A declaration of several variables of one base type. If the first declarator has pointer marks,
the first one of them is a star. -/
structure DeclarationGroup where
  base : List Token
  first : DeclaratorTokens
  others : List (Token × DeclaratorTokens)
  semicolon : Token
  isBase : IsBase base
  isStar : ∀ t, first.marks.head? = some t → t.isPunctuator "*" = true
  isComma : ∀ other ∈ others, other.1.isPunctuator "," = true
  isSemicolon : semicolon.isPunctuator ";" = true
  isGroup : others ≠ []

namespace DeclarationGroup

/-- The declarators of a group. -/
def declarators (g : DeclarationGroup) : List DeclaratorTokens :=
  g.first :: g.others.map Prod.snd

/-- The tokens of a group. -/
def tokens (g : DeclarationGroup) : List Token :=
  g.base ++ g.first.all ++ furtherTokens g.others ++ [g.semicolon]

/-- The tokens of the declaration of one declarator of a group. -/
def single (g : DeclarationGroup) (d : DeclaratorTokens) : List Token :=
  g.base ++ d.all ++ [g.semicolon]

end DeclarationGroup

/-! ## The base of a type -/

theorem Token.IsProper.ne {t : Token} (hproper : t.IsProper) (hkind : t.kind ≠ .punctuator)
    {text : String} (htext : text.toList ∈ separators.map ([·]) ++ operators) : t.text ≠ text := by
  rintro rfl
  exact hkind (hproper htext)

theorem Token.not_isPunctuator {t : Token} {text text' : String}
    (h : t.isPunctuator text = true) (hne : text ≠ text') : t.isPunctuator text' = false := by
  rw [isPunctuator, Bool.and_eq_true, decide_eq_true_eq, decide_eq_true_eq] at h
  simp [isPunctuator, h.2, hne]

theorem kind_of_isBase {base : List Token} (h : IsBase base) :
    ∀ t ∈ base, t.kind = .typeKeyword ∨ t.kind = .identifier := by
  obtain ⟨parts, -, hparts, rfl⟩ := h
  intro t ht
  obtain ⟨part, hpart, ht⟩ := List.mem_flatten.mp ht
  cases hparts part hpart with
  | word hkind =>
    cases List.mem_singleton.mp ht
    exact .inl hkind
  | struct hstruct htag =>
    rw [Token.isTypeKeyword, Bool.and_eq_true] at hstruct
    rcases List.mem_pair.mp ht with rfl | rfl
    · exact .inl (of_decide_eq_true hstruct.1)
    · exact .inr (of_decide_eq_true htag)

/-- The words in front of the first star are those of the base, for pointer marks that begin with a
star. -/
theorem takeWhile_base {base marks : List Token} (hbase : IsBase base)
    (hproper : ∀ t ∈ base, t.IsProper)
    (hstar : ∀ t, marks.head? = some t → t.isPunctuator "*" = true) :
    (base ++ marks).takeWhile (fun t => t.text ≠ "*") = base := by
  have hfront : ∀ t ∈ base, decide (t.text ≠ "*") = true := by
    intro t ht
    refine decide_eq_true ((hproper t ht).ne ?_ (by decide))
    rcases kind_of_isBase hbase t ht with hkind | hkind <;> simp [hkind]
  have hmarks : marks.takeWhile (fun t => t.text ≠ "*") = [] := by
    cases marks with
    | nil => rfl
    | cons t marks =>
      have htext := hstar t rfl
      rw [Token.isPunctuator, Bool.and_eq_true, decide_eq_true_eq, decide_eq_true_eq] at htext
      exact List.takeWhile_cons_of_neg (by simp [htext.2])
  rw [List.takeWhile_append_of_pos hfront, hmarks, List.append_nil]

theorem baseWords_withInitializer (type : Tree) (more : List Tree) (init : Tree) :
    baseWords (withInitializer (.node .variableDecl (type :: more)) init) =
      type.typeTokens.takeWhile fun t => t.text ≠ "*" := by
  cases init <;> rfl

theorem isVariable_withInitializer (children : List Tree) (init : Tree) :
    (withInitializer (.node .variableDecl children) init).isVariable = true := by
  cases init <;> rfl

/-! ## The declarators of a group -/

/-- Whether a tree is made of declarators: of one alone, or of several ones. -/
def Gathers (tree first : Tree) (others : List Tree) : Prop :=
  tree = first ∧ others = [] ∧ first.isVariable = true ∨
    tree = .node .variablesDecl (first :: others)

/-- What a further declarator is made into, with the words of the base of its type. -/
def declaratorTree (words : List Token) (marks name dims init : Tree) : Tree :=
  withInitializer (.node .variableDecl
    (Tree.ofTypeTokens (words ++ marks.children.flatMap Tree.typeTokens) :: name :: dims.children))
    init

theorem Gathers.addDeclarator {tree first : Tree} {others : List Tree}
    (h : Gathers tree first others) (marks name dims init : Tree) :
    Rule.addDeclarator tree (.group [marks, name, dims, init]) =
      .node .variablesDecl
        (first :: (others ++ [declaratorTree (baseWords first) marks name dims init])) := by
  rcases h with ⟨rfl, rfl, hvariable⟩ | rfl
  · cases tree with
    | node label children =>
      rw [Tree.isVariable, Bool.or_eq_true, decide_eq_true_eq, decide_eq_true_eq] at hvariable
      rcases hvariable with rfl | rfl <;> rfl
    | _ => cases hvariable
  · rfl

section

variable {tokens : Array Token} {place : Nat} {base rest : List Token} {d : DeclaratorTokens}
  {stop : Token} {tree : Tree}

/-- What a declarator makes where it stands in front of a comma or a semicolon. -/
theorem DeclaratorTokens.Makes.exists_dims (hmakes : d.Makes base tree)
    (h : Reads tokens place (d.rest ++ stop :: rest)) (hstop : stop.isStop = true) :
    ∃ dims init mid,
      GivesItems Rule.table tokens (.rule .arrayDim) none [] place (some (dims, mid)) ∧
      Gives Rule.table tokens (.rule .initializer) mid (some (init, place + d.rest.length)) ∧
      tree.bare = (withInitializer (.node .variableDecl
        (Tree.ofTypeTokens (base ++ d.marks) :: .leaf d.name 0 :: dims)) init).bare := by
  obtain ⟨hrest, ⟨t, ht, hbare⟩, -⟩ := reads_append.mp h
  exact hmakes tokens place hrest
    ⟨t, ht, (accepts_of_bare Token.isStop (fun _ => rfl) hbare).trans hstop⟩

/-- The first declarator of a group is matched like the one of a single declaration. -/
theorem gives_first (hbase : IsBase base) (hproper : ∀ t ∈ base, t.IsProper)
    (hstar : ∀ t, d.marks.head? = some t → t.isPunctuator "*" = true) (hmakes : d.Makes base tree)
    (h : Reads tokens place (base ++ d.all ++ stop :: rest)) (hstop : stop.isStop = true) :
    ∃ first, first.bare = tree.bare ∧ first.isVariable = true ∧
      (baseWords first).map Token.bare = base.map Token.bare ∧
      Gives Rule.table tokens
        (seq [(Grammar.rule variableDecl).step, (Grammar.rule initializer).step]
          fun trees => withInitializer (pick 0 trees) (pick 1 trees)) place
        (some (first, place + (base ++ d.all).length)) := by
  rw [DeclaratorTokens.append_all] at h
  obtain ⟨words, name, hwords, hname, hhead⟩ := gives_declHead hbase h
  obtain ⟨dims, init, mid, hdims, hinit, htree⟩ :=
    hmakes.exists_dims (reads_append.mp h).2.2 hstop
  let decl := Tree.node .variableDecl (Tree.ofTypeTokens words :: .leaf name 0 :: dims)
  have hdecl : Gives Rule.table tokens (.rule .variableDecl) place (some (decl, mid)) :=
    .rule rfl ((givesFold_addDim _ hdims).fold hhead)
  have hplace : place + (base ++ d.all).length =
      place + (base ++ d.marks).length + 1 + d.rest.length := by
    simp only [DeclaratorTokens.all, List.length_append, List.length_cons]
    omega
  have hsteps : GivesSteps Rule.table tokens
      [(Grammar.rule variableDecl).step, (Grammar.rule initializer).step] [] place
      (some ([decl, init], place + (base ++ d.all).length)) :=
    .cons hdecl (.cons (hplace ▸ hinit) givesSteps_nil)
  refine ⟨withInitializer decl init, ?_, isVariable_withInitializer _ _, ?_, hsteps.sequence rfl⟩
  · rw [htree, naturalPair_withInitializer, naturalPair_withInitializer]
    simp [decl, Tree.bare_ofTypeTokens, hwords, hname]
  · rw [baseWords_withInitializer, Tree.typeTokens_ofTypeTokens]
    have hbare := congrArg (List.takeWhile fun t => decide (t.text ≠ "*")) hwords
    rw [List.takeWhile_map, List.takeWhile_map] at hbare
    exact hbare.trans (congrArg _ (takeWhile_base hbase hproper hstar))

/-- A further declarator of a group is matched without a type, and what it makes with the base of
the group is what it makes alone. -/
theorem gives_furtherDeclarator {comma : Token} (hmakes : d.Makes base tree)
    (hcomma : comma.isPunctuator "," = true)
    (h : Reads tokens place (comma :: d.all ++ stop :: rest)) (hstop : stop.isStop = true) :
    ∃ marks name dims init, Gives Rule.table tokens furtherDeclarator place
        (some (.group [marks, name, dims, init], place + (comma :: d.all).length)) ∧
      ∀ words, words.map Token.bare = base.map Token.bare →
        (declaratorTree words marks name dims init).bare = tree.bare := by
  have hline : comma :: d.all ++ stop :: rest =
      comma :: (d.marks ++ d.name :: (d.rest ++ stop :: rest)) :=
    DeclaratorTokens.append_all [comma] d (stop :: rest)
  rw [hline] at h
  obtain ⟨u, -, hfirst⟩ := gives_token_of_reads (·.isPunctuator ",") (fun _ => rfl) h hcomma
  obtain ⟨words, hwords, hmarks⟩ := givesItems_marks d.isMark d.isIdentifier h.2 []
  obtain ⟨-, hrest⟩ := reads_append.mp h.2
  obtain ⟨name, hname, hgives⟩ :=
    gives_token_of_reads Token.isIdentifier (fun _ => rfl) hrest d.isIdentifier
  obtain ⟨dims, init, mid, hdims, hinit, htree⟩ := hmakes.exists_dims hrest.2 hstop
  have hplace : place + (comma :: d.all).length =
      place + 1 + d.marks.length + 1 + d.rest.length := by
    simp only [DeclaratorTokens.all, List.length_append, List.length_cons]
    omega
  rw [← hplace] at hinit
  have hmarks' : Gives Rule.table tokens (.rule .pointerMarks) (place + 1) (some
      (.node (.word "Pointer marks") (words.map fun t => .leaf t 0),
        place + 1 + d.marks.length)) := .rule rfl hmarks.items
  have hdims' : Gives Rule.table tokens (.rule .arrayDims) (place + 1 + d.marks.length + 1)
      (some (.node (.word "Array dimensions") dims, mid)) := .rule rfl hdims.items
  refine ⟨_, _, _, _, GivesSteps.sequence (.cons hfirst (.cons hmarks' (.cons hgives
    (.cons hdims' (.cons hinit givesSteps_nil))))) rfl, fun baseWords hbase => ?_⟩
  have htypes : (words.map fun t => Tree.leaf t 0).flatMap Tree.typeTokens = words := by
    rw [List.flatMap_map]
    exact List.flatMap_singleton' words
  rw [htree, declaratorTree, naturalPair_withInitializer, naturalPair_withInitializer]
  simp [Tree.children, htypes, Tree.bare_ofTypeTokens, hwords, hbase, hname]

theorem exists_stop {others : List (Token × DeclaratorTokens)} {semicolon : Token}
    (hcommas : ∀ other ∈ others, other.1.isPunctuator "," = true)
    (hsemicolon : semicolon.isPunctuator ";" = true) :
    ∃ stop rest, furtherTokens others ++ [semicolon] = stop :: rest ∧ stop.isStop = true := by
  cases others with
  | nil => exact ⟨semicolon, [], rfl, by rw [Token.isStop, hsemicolon, Bool.true_or]⟩
  | cons other others =>
    refine ⟨other.1, _, rfl, ?_⟩
    rw [Token.isStop, hcommas other List.mem_cons_self, Bool.or_true]

/-- The declarators of a group are added one by one. -/
theorem givesFold_declarators {others : List (Token × DeclaratorTokens)} {trees : List Tree}
    {semicolon : Token} (hcommas : ∀ other ∈ others, other.1.isPunctuator "," = true)
    (hsemicolon : semicolon.isPunctuator ";" = true)
    (hmakes : List.Forall₂ (fun other tree => other.2.Makes base tree) others trees)
    {group first : Tree} {earlier : List Tree} (hgroup : Gathers group first earlier)
    (hwords : (baseWords first).map Token.bare = base.map Token.bare)
    (h : Reads tokens place (furtherTokens others ++ [semicolon])) :
    ∃ group' new, Gathers group' first (earlier ++ new) ∧
      new.map Tree.bare = trees.map Tree.bare ∧
      GivesFold Rule.table tokens furtherDeclarator Rule.addDeclarator true group place
        (some (group', place + (furtherTokens others).length)) := by
  induction hmakes generalizing place group earlier with
  | nil =>
    have hnot := gives_not_token_of_reads (·.isPunctuator ",") (fun _ => rfl) h
      (Token.not_isPunctuator hsemicolon (by decide))
    have hsteps : GivesSteps Rule.table tokens [(punct ",").step, (Grammar.rule pointerMarks).step,
        identifier.step, (Grammar.rule arrayDims).step, (Grammar.rule initializer).step] [] place
        none := hnot.notSteps rfl
    exact ⟨group, [], by rwa [List.append_nil], rfl, hsteps.notSequence.foldEnd group⟩
  | @cons other tree others trees hfirst _ ih =>
    obtain ⟨hcomma, hcommas⟩ := List.forall_mem_cons.mp hcommas
    obtain ⟨stop, rest, hrest, hstop⟩ := exists_stop hcommas hsemicolon
    have hline : furtherTokens (other :: others) ++ [semicolon] =
        other.1 :: other.2.all ++ (furtherTokens others ++ [semicolon]) := by
      simp [furtherTokens]
    rw [hline] at h
    obtain ⟨marks, name, dims, init, hpiece, hbare⟩ :=
      gives_furtherDeclarator hfirst hcomma (hrest ▸ h) hstop
    have hadd := hgroup.addDeclarator marks name dims init
    obtain ⟨group', new, hgroup', hnew, hfold⟩ := ih hcommas (.inr hadd) (reads_append.mp h).2
    refine ⟨group', declaratorTree (baseWords first) marks name dims init :: new, ?_, ?_, ?_⟩
    · rwa [List.append_assoc] at hgroup'
    · rw [List.map_cons, List.map_cons, hnew, hbare _ hwords]
    · have hplace : place + (furtherTokens (other :: others)).length =
          place + (other.1 :: other.2.all).length + (furtherTokens others).length := by
        simp only [furtherTokens, List.flatMap_cons, List.length_append, List.length_cons]
        omega
      rw [hplace]
      exact .more hpiece hfold

/-! ## Groups in a program -/

/-- Behind the name of a declarator no parameters follow. -/
theorem gives_not_paren (hmakes : d.Makes base tree)
    (h : Reads tokens place (d.rest ++ stop :: rest)) (hstop : stop.isStop = true) :
    Gives Rule.table tokens (punct "(") place none := by
  refine gives_not_token fun t ht => Bool.eq_false_iff.mpr fun hparen => ?_
  have hnot : ∀ text, "(" ≠ text → Gives Rule.table tokens (punct text) place none := by
    intro text hne
    refine gives_not_token fun u hu => ?_
    cases ht.symm.trans hu
    exact Token.not_isPunctuator hparen hne
  obtain ⟨dims, init, mid, hdims, hinit, -⟩ := hmakes.exists_dims h hstop
  -- neither a dimension nor an initializer begins like that, so the declarator ends at its name
  have hnoDim : Gives Rule.table tokens (.rule .arrayDim) place none :=
    .rule rfl ((hnot "[" (by decide)).notSteps rfl).notSequence
  cases hdims.unique (hnoDim.itemsEnd [])
  have hnoInit : Gives Rule.table tokens (.rule .initializer) place (some (.empty, place)) :=
    .rule rfl (((hnot "=" (by decide)).notSteps rfl).notSequence.second gives_empty)
  have hempty : place + d.rest.length = place :=
    congrArg Prod.snd (Option.some.inj (hinit.unique hnoInit))
  have hnil : d.rest = [] := List.length_eq_zero_iff.mp (Nat.add_eq_left.mp hempty)
  rw [hnil] at h
  obtain ⟨⟨u, hu, hbare⟩, -⟩ := h
  cases ht.symm.trans hu
  rw [← accepts_of_bare Token.isStop (fun _ => rfl) hbare, Token.isStop,
    Token.not_isPunctuator hparen (by decide), Token.not_isPunctuator hparen (by decide)] at hstop
  cases hstop

/-- A declaration of variables is neither a function nor a prototype of one. -/
theorem givesSteps_not_function (steps : List (Step G)) (hbase : IsBase base)
    (hmakes : d.Makes base tree) (h : Reads tokens place (base ++ d.all ++ stop :: rest))
    (hstop : stop.isStop = true) : GivesSteps Rule.table tokens
      ((Grammar.rule typeName).step :: identifier.step :: (punct "(").step :: steps) [] place
      none := by
  rw [DeclaratorTokens.append_all] at h
  obtain ⟨words, -, htype⟩ := gives_typeName hbase d.isMark d.isIdentifier h
  obtain ⟨-, hrest⟩ := reads_append.mp h
  obtain ⟨name, -, hname⟩ :=
    gives_token_of_reads Token.isIdentifier (fun _ => rfl) hrest d.isIdentifier
  exact .cons htype (.cons hname ((gives_not_paren hmakes hrest.2 hstop).notSteps rfl))

/-- Nothing up to the name of a declarator is a brace. -/
theorem ne_brace (hbase : IsBase base) (hproper : ∀ t ∈ base ++ d.all, t.IsProper) :
    ∀ t ∈ base ++ d.marks ++ [d.name], t.text ≠ "\x7b" := by
  intro t ht
  rw [List.append_assoc, List.mem_append, List.mem_append, List.mem_singleton] at ht
  rcases ht with ht | ht | rfl
  · refine (hproper t (List.mem_append_left _ ht)).ne ?_ (by decide)
    rcases kind_of_isBase hbase t ht with hkind | hkind <;> simp [hkind]
  · intro htext
    have hmark := d.isMark t ht
    simp [Token.isMark, Token.isPunctuator, Token.isTypeKeyword, htext] at hmark
  · refine (hproper d.name (by simp [DeclaratorTokens.all])).ne ?_ (by decide)
    have hkind : d.name.kind = .identifier := of_decide_eq_true d.isIdentifier
    simp [hkind]

/-- A declaration of variables does not declare a structure. -/
theorem gives_not_structDecl (hbase : IsBase base) (hproper : ∀ t ∈ base ++ d.all, t.IsProper)
    (h : Reads tokens place (base ++ d.marks ++ d.name :: rest)) :
    Gives Rule.table tokens (.rule .structDecl) place none := by
  have hbrace := ne_brace hbase hproper
  obtain ⟨parts, hne, hparts, rfl⟩ := hbase
  obtain ⟨first, others, rfl⟩ := List.exists_cons_of_ne_nil hne
  rw [List.flatten_cons, List.append_assoc, List.append_assoc] at h
  rw [List.flatten_cons, List.append_assoc, List.append_assoc] at hbrace
  cases (List.forall_mem_cons.mp hparts).1 with
  | @word t hkind htext =>
    have hnot := gives_not_token_of_reads (·.isTypeKeyword "struct") (fun _ => rfl) h
      (by simp [Token.isTypeKeyword, htext])
    exact .rule rfl (hnot.notSteps rfl).notSequence
  | @struct t tag ht htag =>
    obtain ⟨u, -, hword⟩ := gives_token_of_reads (·.isTypeKeyword "struct") (fun _ => rfl) h ht
    obtain ⟨v, -, htag⟩ := gives_token_of_reads Token.isIdentifier (fun _ => rfl) h.2 htag
    -- behind the tag stands another word, a mark or the name
    obtain ⟨next, more, hmore⟩ :
        ∃ next more, others.flatten ++ (d.marks ++ [d.name]) = next :: more :=
      List.exists_cons_of_ne_nil (by simp)
    have hline : others.flatten ++ (d.marks ++ d.name :: rest) = next :: (more ++ rest) := by
      rw [← List.cons_append, ← hmore]
      simp
    have hrest : Reads tokens (place + 1 + 1) (next :: (more ++ rest)) := hline ▸ h.2.2
    obtain ⟨⟨w, hw, hbare⟩, -⟩ := hrest
    have hnobrace : hasText tokens (place + 1 + 1) "\x7b" = false := by
      rw [hasText, hw]
      refine decide_eq_false ?_
      rw [Token.text_eq_of_bare hbare]
      exact hbrace next (List.mem_append_right _ (hmore ▸ List.mem_cons_self))
    exact .rule rfl (GivesSteps.cons hword (.cons htag
      ((gives_not_block hnobrace).notSteps rfl))).notSequence

/-- Behind the last token a program has no further items. -/
theorem gives_not_programItem (h : tokens[place]? = none) :
    Gives Rule.table tokens programItem place none := by
  have htoken : ∀ accepts, Gives Rule.table tokens (.token accepts) place none := fun accepts =>
    gives_not_token fun t ht => nomatch h.symm.trans ht
  have hrule : ∀ {name : Rule}, Gives Rule.table tokens name.grammar place none →
      Gives Rule.table tokens (.rule name) place none := .rule rfl
  have hseq : ∀ {step : Step G} {steps : List (Step G)} (f : List Tree → Tree),
      step.message = none → Gives Rule.table tokens step.grammar place none →
        Gives Rule.table tokens (seq (step :: steps) f) place none :=
    fun f hmessage hstep => (hstep.notSteps hmessage).notSequence
  have hstruct : Gives Rule.table tokens (.rule .structType) place none :=
    hrule (hseq _ rfl (htoken _))
  have htype : Gives Rule.table tokens (.rule .typeName) place none :=
    hrule (hstruct.second (htoken _)).notFold
  have hdecl : Gives Rule.table tokens (.rule .variableDecl) place none :=
    hrule (hseq _ rfl htype).notFold
  have hcreation : Gives Rule.table tokens (.rule .variableCreation) place none :=
    hrule (hseq _ rfl hdecl).notFold
  refine .second (.second (.second (.second ?_ ?_) ?_) (hseq _ rfl hcreation)) (htoken _)
  · exact hrule (hseq _ rfl (htoken _))
  · exact hrule (hseq _ rfl htype)
  · exact hrule (hseq _ rfl htype)

/-- What a declaration group is matched to. -/
theorem gives_group {g : DeclarationGroup} (hproper : ∀ t ∈ g.tokens, t.IsProper) {tree : Tree}
    {trees : List Tree} (hfirst : g.first.Makes g.base tree)
    (hothers : List.Forall₂ (fun other tree => other.2.Makes g.base tree) g.others trees) :
    ∃ children, children.map Tree.bare = tree.bare :: trees.map Tree.bare ∧
      Gives Rule.table g.tokens.toArray programItem 0
        (some (.node .variablesDecl children, g.tokens.length)) := by
  obtain ⟨stop, rest, hrest, hstop⟩ := exists_stop g.isComma g.isSemicolon
  have hreads : Reads g.tokens.toArray 0 (g.base ++ g.first.all ++ stop :: rest) := by
    rw [← hrest, ← List.append_assoc]
    exact reads_toArray rfl
  have hfront : ∀ t ∈ g.base ++ g.first.all, t.IsProper := fun t ht =>
    hproper t (List.mem_append_left _ (List.mem_append_left _ ht))
  obtain ⟨first, hbare, hvariable, hwords, hgives⟩ := gives_first g.isBase
    (fun t ht => hfront t (List.mem_append_left _ ht)) g.isStar hfirst hreads hstop
  have hfurther := hrest ▸ (reads_append.mp hreads).2
  obtain ⟨group, new, hgroup, hnew, hfold⟩ := givesFold_declarators g.isComma g.isSemicolon hothers
    (.inl ⟨rfl, rfl, hvariable⟩) hwords hfurther
  have hcreation : Gives Rule.table g.tokens.toArray (.rule .variableCreation) 0 _ :=
    .rule rfl (hfold.fold hgives)
  obtain ⟨semicolon, -, hsemicolon⟩ := gives_token_of_reads (·.isPunctuator ";") (fun _ => rfl)
    (reads_append.mp hfurther).2 g.isSemicolon
  have hsteps : GivesSteps Rule.table g.tokens.toArray [(Grammar.rule variableCreation).step,
      (punct ";").orFail "; missed after variable creating."] [] 0 _ :=
    .cons hcreation (.cons hsemicolon givesSteps_nil)
  have hlength : g.tokens.length =
      0 + (g.base ++ g.first.all).length + (furtherTokens g.others).length + 1 := by
    simp only [DeclarationGroup.tokens, List.length_append, List.length_singleton]
    omega
  have hnew' : new ≠ [] := by
    rintro rfl
    have hnil : g.others.length = 0 := by
      rw [hothers.length_eq, ← List.length_map, ← hnew]
      rfl
    exact g.isGroup (List.length_eq_zero_iff.mp hnil)
  rcases hgroup with ⟨-, hnil, -⟩ | rfl
  · exact absurd hnil hnew'
  -- the group is the first item that matches, since what is tried before it matches nothing
  · refine ⟨first :: new, by rw [List.map_cons, hbare, hnew], hlength ▸ ?_⟩
    have hstruct := gives_not_structDecl g.isBase hfront
      (DeclaratorTokens.append_all g.base g.first (stop :: rest) ▸ hreads)
    have hnot := fun steps => givesSteps_not_function steps g.isBase hfirst hreads hstop
    have hdecl : Gives Rule.table g.tokens.toArray (.rule .functionDecl) 0 none :=
      .rule rfl (hnot _).notSequence
    have hprototype : Gives Rule.table g.tokens.toArray (.rule .functionPrototype) 0 none :=
      .rule rfl (hnot _).notSequence
    exact .first (.second ((hstruct.second hdecl).second hprototype) (hsteps.sequence rfl)) _

theorem parseTree_of_gives {tokens : List Token} {tree : Tree}
    (h : Gives Rule.table tokens.toArray (.rule .program) 0 (some (tree, tokens.length))) :
    parseTree tokens = .ok tree.numbered := by
  refine parseTree_of_plain (h.plain_eq fun hends => ?_)
  obtain ⟨e, he⟩ := ends_program tokens.toArray _ hends
  cases he

end

/-! ## The declarations of a group -/

/-- Whether a tree is what a declaration is parsed to, wherever its tokens stand, if it declares one
variable. Then there are only dimensions and an initializer behind the name of the variable, and
neither parameters nor further declarators. -/
def Declares (declaration : List Token) (tree : Tree) : Prop :=
  ∃ tokens : List Token, tokens.map Token.bare = declaration.map Token.bare ∧
    parseTree tokens = .ok (.node .program [tree]) ∧ tree.isVariable = true

theorem DeclarationGroup.single_subset {g : DeclarationGroup} {d : DeclaratorTokens}
    (hd : d ∈ g.declarators) : g.single d ⊆ g.tokens := by
  intro t ht
  rw [single, List.append_assoc, List.mem_append, List.mem_append] at ht
  rw [tokens, List.append_assoc, List.append_assoc, List.mem_append, List.mem_append,
    List.mem_append]
  rcases ht with ht | ht | ht
  · exact .inl ht
  · rcases List.mem_cons.mp hd with rfl | hd
    · exact .inr (.inl ht)
    · obtain ⟨⟨comma, d⟩, hother, rfl⟩ := List.mem_map.mp hd
      exact .inr (.inr (.inl (List.mem_flatMap.mpr ⟨_, hother, List.mem_cons_of_mem _ ht⟩)))
  · exact .inr (.inr (.inr ht))

theorem Declares.makes {g : DeclarationGroup} (hproper : ∀ t ∈ g.tokens, t.IsProper)
    {d : DeclaratorTokens} (hd : d ∈ g.declarators) {tree : Tree}
    (h : Declares (g.single d) tree) : d.Makes g.base tree := by
  obtain ⟨tokens, htokens, hparse, hvariable⟩ := h
  refine makes_of_single g.isBase (fun t ht => ?_) htokens hvariable hparse
  have hbare : t.bare ∈ (g.single d).map Token.bare := htokens ▸ List.mem_map_of_mem ht
  obtain ⟨u, hu, hut⟩ := List.mem_map.mp hbare
  exact Token.isProper_of_bare hut (hproper u (DeclarationGroup.single_subset hd hu))

/-- A declaration group is parsed to one declaration of several variables. Its children are, up to
positions, what the separate declarations of its declarators are parsed to, in the same order. -/
theorem parseTree_group {g : DeclarationGroup} (hproper : ∀ t ∈ g.tokens, t.IsProper)
    {trees : List Tree}
    (h : List.Forall₂ (fun d tree => Declares (g.single d) tree) g.declarators trees) :
    ∃ children, parseTree g.tokens = .ok (.node .program [.node .variablesDecl children]) ∧
      children.map Tree.bare = trees.map Tree.bare := by
  have hmakes : List.Forall₂ (fun d tree => DeclaratorTokens.Makes g.base d tree) g.declarators
      trees := by
    refine ((List.forall₂_and_left _ _).mpr ⟨fun d hd => hd, h⟩).imp fun d tree hdeclares => ?_
    exact hdeclares.2.makes hproper hdeclares.1
  obtain ⟨tree, others, hfirst, hothers, rfl⟩ := List.forall₂_cons_left_iff.mp hmakes
  rw [List.forall₂_map_left_iff] at hothers
  obtain ⟨children, hchildren, hgroup⟩ := gives_group hproper hfirst hothers
  have hend : Gives Rule.table g.tokens.toArray programItem g.tokens.length none :=
    gives_not_programItem (by simp)
  have hprogram : Gives Rule.table g.tokens.toArray (.rule .program) 0
      (some (.node .program [.node .variablesDecl children], g.tokens.length)) :=
    .rule rfl (GivesItems.more hgroup (hend.itemsEnd _)).items
  have hparse := parseTree_of_gives hprogram
  have hnumbered := Tree.bare_numbered (.node .program [.node .variablesDecl children])
  rw [Tree.bare_node, List.map_singleton, Tree.bare_node] at hnumbered
  obtain ⟨items, hitems, hbare⟩ := Tree.exists_of_bare_eq_node hnumbered
  obtain ⟨item, rfl, hitem⟩ := List.map_eq_singleton_iff.mp hbare
  obtain ⟨children', rfl, hchildren'⟩ := Tree.exists_of_bare_eq_node hitem
  exact ⟨children', hparse.trans (congrArg _ hitems), hchildren'.trans hchildren⟩

/-- The group `struct S *a[n] = {p, q}, b;`. -/
def pointerGroup : DeclarationGroup where
  base := [⟨⟨.typeKeyword, "struct", ⟨1, 1⟩, []⟩, 1⟩, ⟨⟨.identifier, "S", ⟨1, 8⟩, []⟩, 2⟩]
  first := {
    marks := [⟨⟨.punctuator, "*", ⟨1, 10⟩, []⟩, 3⟩]
    name := ⟨⟨.identifier, "a", ⟨1, 11⟩, []⟩, 4⟩
    rest := [
      ⟨⟨.punctuator, "[", ⟨1, 12⟩, []⟩, 5⟩, ⟨⟨.identifier, "n", ⟨1, 13⟩, []⟩, 6⟩,
      ⟨⟨.punctuator, "]", ⟨1, 14⟩, []⟩, 7⟩, ⟨⟨.punctuator, "=", ⟨1, 16⟩, []⟩, 8⟩,
      ⟨⟨.punctuator, "\x7b", ⟨1, 18⟩, []⟩, 9⟩, ⟨⟨.identifier, "p", ⟨1, 19⟩, []⟩, 10⟩,
      ⟨⟨.punctuator, ",", ⟨1, 20⟩, []⟩, 11⟩, ⟨⟨.identifier, "q", ⟨1, 22⟩, []⟩, 12⟩,
      ⟨⟨.punctuator, "\x7d", ⟨1, 23⟩, []⟩, 13⟩]
    isMark := by decide
    isIdentifier := rfl }
  others := [(⟨⟨.punctuator, ",", ⟨1, 24⟩, []⟩, 11⟩,
    { marks := []
      name := ⟨⟨.identifier, "b", ⟨1, 26⟩, []⟩, 14⟩
      rest := []
      isMark := nofun
      isIdentifier := rfl })]
  semicolon := ⟨⟨.punctuator, ";", ⟨1, 27⟩, []⟩, 15⟩
  isBase := ⟨[_], nofun, List.forall_mem_singleton.mpr (.struct rfl rfl), rfl⟩
  isStar := by decide
  isComma := by decide
  isSemicolon := rfl
  isGroup := nofun

/-- The trees of `struct S *a[n] = {p, q};` and of `struct S b;`. -/
def pointerTrees : List Tree :=
  let token (place : Nat) : Token := pointerGroup.tokens.getD place default
  let leaf (place : Nat) : Tree := .leaf (token place) 0
  [.node .variableInit [
      .node .variableDecl [.typeName [token 0, token 1, token 2] 0, leaf 3,
        .node .arrayDim [leaf 5]],
      .node .initList [.node .initValues [leaf 9, leaf 11]]],
    .node .variableDecl [.typeName [token 0, token 1] 0, leaf 14]]

/-- The comma of the list does not end the first declarator, and `b` is no pointer. -/
theorem parseTree_pointerGroup :
    (∀ t ∈ pointerGroup.tokens, t.IsProper) ∧
      ∃ children, parseTree pointerGroup.tokens =
          .ok (.node .program [.node .variablesDecl children]) ∧
        children.map Tree.bare = (pointerTrees.map Tree.numbered).map Tree.bare := by
  have hproper : ∀ t ∈ pointerGroup.tokens, t.IsProper := by decide +kernel
  have hpointer : parseTree (pointerGroup.single pointerGroup.first) =
      .ok (Tree.numbered (.node .program [pointerTrees.getD 0 .empty])) :=
    parseTree_of_plain (by rfl)
  have hplain :
      parseTree (pointerGroup.single (pointerGroup.declarators.getD 1 pointerGroup.first)) =
        .ok (Tree.numbered (.node .program [pointerTrees.getD 1 .empty])) :=
    parseTree_of_plain (by rfl)
  exact ⟨hproper, parseTree_group hproper
    (.cons ⟨_, rfl, hpointer, rfl⟩ (.cons ⟨_, rfl, hplain, rfl⟩ .nil))⟩

end MiniC
