import Mathlib.Data.List.Basic
import Mathlib.Data.Option.Basic
import MiniC.Ast.OfTree
import MiniC.Language.Parse
import MiniC.Proofs.Occurrences

set_option autoImplicit false

/-! # The numbers of leaves

Numbering the leaves of a tree gives no number twice. The occurrences of types, names and literals
in the program of a tree are leaves of the tree, in the same order, and no leaf is two of them; so
the number of an occurrence tells which one it is. -/

namespace MiniC

/-! ## Trees -/

namespace Tree

/-- The numbers of the leaves of a tree, from the left. What is in a group has no numbers. -/
def slots : Tree → List Nat
  | .empty => []
  | .leaf _ slot => [slot]
  | .typeName _ slot => [slot]
  | .node _ children => slotsAll children
  | .group _ => []
where
  /-- The numbers of the leaves of several trees, from the left. -/
  slotsAll : List Tree → List Nat
    | [] => []
    | t :: rest => t.slots ++ slotsAll rest

/-- The leaves of several trees are numbered one after another if those of each tree are. -/
theorem slots_numberFrom (n : Nat) (t : Tree) :
    ∃ count, (t.numberFrom n).2 = n + count ∧ (t.numberFrom n).1.slots = List.range' n count := by
  induction n, t using numberFrom.induct
    (fun n ts => ∃ count, (numberFrom.numberAllFrom n ts).2 = n + count ∧
      slots.slotsAll (numberFrom.numberAllFrom n ts).1 = List.range' n count) with
  | case1 n => exact ⟨0, rfl, rfl⟩
  | case2 n => exact ⟨1, rfl, rfl⟩
  | case3 n => exact ⟨1, rfl, rfl⟩
  | case4 n label children numbered next heq ih => exact ih
  | case5 n => exact ⟨0, rfl, rfl⟩
  | case6 n => exact ⟨0, rfl, rfl⟩
  | case7 n t rest first next heq others last heq' ih ih' =>
    obtain ⟨count, hnext, hslots⟩ := ih
    obtain ⟨count', hlast, hslots'⟩ := ih'
    rw [heq] at hnext hslots
    rw [heq'] at hlast hslots'
    dsimp only at hnext hlast
    rw [numberFrom.numberAllFrom, heq]
    dsimp only
    rw [heq']
    refine ⟨count + count', ?_, ?_⟩
    · rw [hlast, hnext, Nat.add_assoc]
    · rw [slots.slotsAll, hslots, hslots', hnext, List.range'_append_1]

theorem nodup_slots_numbered (t : Tree) : t.numbered.slots.Nodup := by
  obtain ⟨count, -, hslots⟩ := slots_numberFrom 0 t
  rw [numbered, hslots]
  exact List.nodup_range'

end Tree

/-! ## Programs -/

/-- The numbers of the leaves among occurrences. -/
def slotsOf (l : List Occurrence) : List Nat :=
  l.filterMap Occurrence.slot?

theorem slotsOf_append (l l' : List Occurrence) : slotsOf (l ++ l') = slotsOf l ++ slotsOf l' :=
  List.filterMap_append

/-- Whether the leaves among occurrences are leaves of a tree, in the same order. -/
def Stems (l : List Occurrence) (t : Tree) : Prop :=
  (slotsOf l).Sublist t.slots

/-- Whether the leaves among occurrences are leaves of several trees, in the same order. -/
def StemsAll (l : List Occurrence) (ts : List Tree) : Prop :=
  (slotsOf l).Sublist (Tree.slots.slotsAll ts)

theorem StemsAll.node {l : List Occurrence} {ts : List Tree} (h : StemsAll l ts) (label : Label) :
    Stems l (.node label ts) := h

theorem stemsAll_nil (ts : List Tree) : StemsAll [] ts :=
  List.nil_sublist _

theorem stems_nil (t : Tree) : Stems [] t :=
  List.nil_sublist _

theorem Stems.append {l l' : List Occurrence} {t : Tree} {ts : List Tree} (h : Stems l t)
    (h' : StemsAll l' ts) : StemsAll (l ++ l') (t :: ts) := by
  rw [StemsAll, slotsOf_append]
  exact List.Sublist.append h h'

theorem Stems.single {l : List Occurrence} {t : Tree} (h : Stems l t) : StemsAll l [t] := by
  rw [← List.append_nil l]
  exact h.append (stemsAll_nil [])

theorem StemsAll.skip {l : List Occurrence} {ts : List Tree} (h : StemsAll l ts) (t : Tree) :
    StemsAll l (t :: ts) :=
  List.Sublist.trans h (List.sublist_append_right _ _)

theorem bind_eq_some {α β : Type} {x : Option α} {f : α → Option β} {b : β} :
    (x >>= f) = some b ↔ ∃ a, x = some a ∧ f a = some b :=
  Option.bind_eq_some_iff

theorem pure_eq_some {α : Type} {a b : α} : (pure a : Option α) = some b ↔ a = b :=
  Option.some_inj

/-- What stems from trees one by one stems from all of them. -/
theorem stemsAll_mapM {α : Type} {f : Tree → Option α} {occurrences : α → List Occurrence}
    {ts : List Tree} {as : List α} (h : ts.mapM f = some as)
    (hf : ∀ t ∈ ts, ∀ a, f t = some a → Stems (occurrences a) t) :
    StemsAll (as.flatMap occurrences) ts := by
  induction ts generalizing as with
  | nil =>
    rw [List.mapM_nil] at h
    cases h
    exact stemsAll_nil _
  | cons t rest ih =>
    obtain ⟨ht, hrest⟩ := List.forall_mem_cons.mp hf
    simp only [List.mapM_cons, bind_eq_some, pure_eq_some] at h
    obtain ⟨a, ha, as, has, rfl⟩ := h
    rw [List.flatMap_cons]
    exact (ht a ha).append (ih has hrest)

theorem TypeName.stems_ofTree? {t : Tree} {name : TypeName} (h : TypeName.ofTree? t = some name) :
    Stems [.type name] t := by
  unfold ofTree? at h
  split at h
  · cases h
    exact List.Sublist.refl _
  · cases h
    exact List.Sublist.refl _
  · cases h

namespace Expr

/-- An expression of one operand has no further leaves. -/
theorem slotsOf_ofOne? {label : Label} {e e' : Expr} (h : ofOne? label e = some e') :
    slotsOf e'.occurrences = slotsOf e.occurrences := by
  unfold ofOne? at h
  split at h
  · cases h
    rfl
  · rcases (Option.orElse_eq_some _ _ _).mp h with h | ⟨-, h⟩
    · obtain ⟨op, -, rfl⟩ := Option.map_eq_some_iff.mp h
      rfl
    · obtain ⟨op, -, rfl⟩ := Option.map_eq_some_iff.mp h
      rfl

/-- An expression of two operands has no further leaves. -/
theorem slotsOf_ofTwo? {label : Label} {left right e : Expr} (h : ofTwo? label left right = some e) :
    slotsOf e.occurrences = slotsOf (left.occurrences ++ right.occurrences) := by
  unfold ofTwo? at h
  split at h
  · cases h
    rfl
  · rcases (Option.orElse_eq_some _ _ _).mp h with h | ⟨-, h⟩
    · obtain ⟨op, -, rfl⟩ := Option.map_eq_some_iff.mp h
      rfl
    · obtain ⟨op, -, rfl⟩ := Option.map_eq_some_iff.mp h
      rfl
  · cases h

theorem stems_ofLeaf? {token : Token} {slot : Nat} {e : Expr}
    (h : ofLeaf? ⟨token, slot⟩ = some e) : Stems e.occurrences (.leaf token slot) := by
  unfold ofLeaf? at h
  split at h
  · cases h
    exact List.Sublist.refl _
  · cases h
    exact List.Sublist.refl _
  · cases h

theorem stems_ofTree? (t : Tree) {e : Expr} (h : ofTree? t = some e) : Stems e.occurrences t := by
  induction t using ofTree?.induct
    (fun ts => ∀ es, ofTree?.ofTrees? ts = some es →
      StemsAll (occurrences.occurrencesAll es) ts) generalizing e with
  | case1 token slot => exact stems_ofLeaf? h
  | case2 type =>
    obtain ⟨name, hname, rfl⟩ := Option.map_eq_some_iff.mp h
    exact (TypeName.stems_ofTree? hname).single
  | case3 type e ih =>
    simp only [ofTree?, bind_eq_some, pure_eq_some] at h
    obtain ⟨name, hname, e', he', rfl⟩ := h
    exact (TypeName.stems_ofTree? hname).append (ih he').single
  | case4 e field ih =>
    simp only [ofTree?, bind_eq_some, pure_eq_some] at h
    obtain ⟨e', he', leaf, -, rfl⟩ := h
    have hparts := (ih he').append (stemsAll_nil [field])
    rwa [List.append_nil] at hparts
  | case5 e field ih =>
    simp only [ofTree?, bind_eq_some, pure_eq_some] at h
    obtain ⟨e', he', leaf, -, rfl⟩ := h
    have hparts := (ih he').append (stemsAll_nil [field])
    rwa [List.append_nil] at hparts
  | case6 callee args ih ih' =>
    simp only [ofTree?, bind_eq_some, pure_eq_some] at h
    obtain ⟨callee', hcallee, args', hargs, rfl⟩ := h
    exact (ih hcallee).append (ih' args' hargs)
  | case7 head tail ih ih' =>
    simp only [ofTree?, bind_eq_some, pure_eq_some] at h
    obtain ⟨head', hhead, tail', htail, rfl⟩ := h
    exact (((ih hhead).append (ih' tail' htail)).node .initValues).single
  | case8 cond first second ih ih' ih'' =>
    simp only [ofTree?, bind_eq_some, pure_eq_some] at h
    obtain ⟨cond', hcond, first', hfirst, second', hsecond, rfl⟩ := h
    exact (ih hcond).append ((ih' hfirst).append (ih'' hsecond).single)
  | case9 label e hsizeOf hcall hlist ih =>
    rw [ofTree?] at h
    · obtain ⟨e', he', hone⟩ := Option.bind_eq_some_iff.mp h
      rw [Stems, slotsOf_ofOne? hone]
      exact (ih he').single
    · exact hsizeOf
    · exact hcall
    · exact hlist
  | case10 label left right hcast hmember harrow hcall ih ih' =>
    rw [ofTree?] at h
    · simp only [bind_eq_some] at h
      obtain ⟨left', hleft, right', hright, htwo⟩ := h
      rw [Stems, slotsOf_ofTwo? htwo]
      exact (ih hleft).append (ih' hright).single
    · exact hcast
    · exact hmember
    · exact harrow
    · exact hcall
  | case11 t _ _ _ _ _ _ _ _ _ _ =>
    rw [ofTree?] at h
    · cases h
    all_goals assumption
  | case12 =>
    rename_i es hes
    cases hes
    exact stemsAll_nil _
  | case13 t rest ih ih' =>
    rename_i es hes
    simp only [ofTree?.ofTrees?, bind_eq_some, pure_eq_some] at hes
    obtain ⟨e, he, es, hes, rfl⟩ := hes
    exact (ih he).append (ih' es hes)

end Expr

/-! ## Declarations -/

theorem Dim.stems_ofTree? (t : Tree) {dim : Dim} (h : ofTree? t = some dim) :
    Stems dim.occurrences t := by
  unfold ofTree? at h
  split at h
  · obtain ⟨size, hsize, rfl⟩ := Option.map_eq_some_iff.mp h
    exact (Expr.stems_ofTree? _ hsize).single
  · cases h
    exact stems_nil _
  · cases h

namespace Declarator

/-- A declarator without an initializer comes from its type and its dimensions. -/
theorem stems_ofDecl? {t : Tree} {d : Declarator} (h : ofDecl? t = some d) :
    d.init = none ∧ Stems (.type d.type :: d.dims.flatMap Dim.occurrences) t := by
  unfold ofDecl? at h
  split at h
  · rename_i type name dims
    simp only [bind_eq_some, pure_eq_some] at h
    obtain ⟨typeName, htype, leaf, -, dims', hdims, rfl⟩ := h
    refine ⟨rfl, (TypeName.stems_ofTree? htype).append (StemsAll.skip ?_ name)⟩
    exact stemsAll_mapM hdims fun t _ dim => Dim.stems_ofTree? t
  · cases h

theorem stems_ofTree? (t : Tree) {d : Declarator} (h : ofTree? t = some d) :
    Stems d.occurrences t := by
  unfold ofTree? at h
  split at h
  · simp only [bind_eq_some, pure_eq_some] at h
    obtain ⟨decl, hdecl, init, hinit, rfl⟩ := h
    have hparts := (stems_ofDecl? hdecl).2.append (Expr.stems_ofTree? _ hinit).single
    simpa [occurrences] using hparts.node .variableInit
  · obtain ⟨hinit, hstems⟩ := stems_ofDecl? h
    simpa [occurrences, hinit] using hstems

end Declarator

theorem Declaration.stems_ofTree? {t : Tree} {d : Declaration} (h : ofTree? t = some d) :
    Stems d.occurrences t := by
  unfold ofTree? at h
  split at h
  · rename_i head next tail
    simp only [bind_eq_some, pure_eq_some] at h
    obtain ⟨head', hhead, tail', htail, rfl⟩ := h
    refine (Declarator.stems_ofTree? _ hhead).append ?_
    exact stemsAll_mapM htail fun t _ d => Declarator.stems_ofTree? t
  · simp only [bind_eq_some, pure_eq_some] at h
    obtain ⟨head, hhead, rfl⟩ := h
    simpa [occurrences, all] using Declarator.stems_ofTree? _ hhead

/-! ## Statements -/

namespace Instr

theorem stems_ofTree? (t : Tree) {i : Instr} (h : ofTree? t = some i) : Stems i.occurrences t := by
  have hexpr : ∀ {t : Tree}, (Expr.ofTree? t).map Instr.expr = some i → Stems i.occurrences t := by
    intro t h
    obtain ⟨e, he, rfl⟩ := Option.map_eq_some_iff.mp h
    exact Expr.stems_ofTree? _ he
  have hdeclare : ∀ {t : Tree}, (Declaration.ofTree? t).map Instr.declare = some i →
      Stems i.occurrences t := by
    intro t h
    obtain ⟨d, hd, rfl⟩ := Option.map_eq_some_iff.mp h
    exact Declaration.stems_ofTree? hd
  unfold ofTree? at h
  split at h
  · cases h
    exact stems_nil _
  · obtain ⟨e, he, rfl⟩ := Option.map_eq_some_iff.mp h
    simpa [occurrences] using (Expr.stems_ofTree? _ he).single.node .returnFrom
  · obtain ⟨leaf, -, rfl⟩ := Option.map_eq_some_iff.mp h
    exact stems_nil _
  · exact hdeclare h
  · exact hdeclare h
  · exact hdeclare h
  · rcases (Option.orElse_eq_some _ _ _).mp h with h | ⟨-, h⟩
    · unfold ofKeyword? at h
      split at h
      · cases h
        exact stems_nil _
      · split at h
        · cases h
          exact stems_nil _
        · cases h
    · exact hexpr h
  · exact hexpr h

theorem stems_ofOptional? {t : Tree} {i : Option Instr} (h : ofOptional? t = some i) :
    Stems (i.toList.flatMap Instr.occurrences) t := by
  unfold ofOptional? at h
  split at h
  · cases h
    exact stems_nil _
  · obtain ⟨i, hi, rfl⟩ := Option.map_eq_some_iff.mp h
    simpa using stems_ofTree? _ hi

end Instr

theorem stems_caseLabel? {t : Tree} {label : Option Expr} (h : caseLabel? t = some label) :
    Stems (label.toList.flatMap Expr.occurrences) t := by
  have hexpr : (Expr.ofTree? t).map some = some label →
      Stems (label.toList.flatMap Expr.occurrences) t := by
    intro h
    obtain ⟨e, he, rfl⟩ := Option.map_eq_some_iff.mp h
    simpa using Expr.stems_ofTree? _ he
  unfold caseLabel? at h
  split at h
  · split at h
    · cases h
      exact stems_nil _
    · exact hexpr h
  · exact hexpr h

namespace Stmt

/-- The occurrences in the branches of a chain of conditions. -/
def branchOccurrences (parts : List (Expr × Stmt) × Option Stmt) : List Occurrence :=
  occurrences.occurrencesBranches parts.1 ++ occurrences.occurrencesElse parts.2

/-- One branch more in front of the others. -/
theorem stemsAll_branch {label : Label} {cond body : Tree} {rest : List Tree} {c : Expr} {s : Stmt}
    {parts : List (Expr × Stmt) × Option Stmt} (hcond : Expr.ofTree? cond = some c)
    (hbody : Stems s.occurrences body) (hrest : StemsAll (branchOccurrences parts) rest) :
    StemsAll (branchOccurrences ((c, s) :: parts.1, parts.2)) (.node label [cond, body] :: rest) := by
  have hbranch := ((Expr.stems_ofTree? _ hcond).append hbody.single).node label
  simpa [branchOccurrences, occurrences.occurrencesBranches] using hbranch.append hrest

theorem stems_ofTree? (t : Tree) : ∀ s, ofTree? t = some s → Stems s.occurrences t := by
  -- the four recursive functions that make statements are followed at once
  refine ofTree?.induct
    (fun ts => ∀ body, ofTree?.ofTrees? ts = some body →
      StemsAll (occurrences.occurrencesAll body) ts)
    (fun t => ∀ s, ofTree? t = some s → Stems s.occurrences t)
    (fun ts => ∀ parts, ofTree?.cases? ts = some parts →
      StemsAll (occurrences.occurrencesCases parts) ts)
    (fun ts => ∀ parts, ofTree?.branches? ts = some parts →
      StemsAll (branchOccurrences parts) ts)
    ?block ?emptyLine ?line ?lines ?jumpLabel ?ifChain ?ifChainElse ?whileLoop ?doWhileLoop
    ?forLoop ?switchOn ?other ?noStatement ?statement ?noCase ?switchCase ?otherCase
    ?noBranch ?elseBranch ?ifBranch ?elseIfBranch ?otherBranch t
  case block =>
    intro body ih s h
    simp only [ofTree?, bind_eq_some, pure_eq_some] at h
    obtain ⟨body', hbody, rfl⟩ := h
    exact ih body' hbody
  case emptyLine =>
    intro s h
    cases h
    exact stems_nil _
  case line =>
    intro instr s h
    simp only [ofTree?, bind_eq_some, pure_eq_some] at h
    obtain ⟨i, hi, rfl⟩ := h
    simpa [occurrences] using (Instr.stems_ofTree? _ hi).single.node .line
  case lines =>
    intro instrs s h
    rw [ofTree?] at h
    simp only [bind_eq_some, pure_eq_some] at h
    obtain ⟨is, his, rfl⟩ := h
    exact stemsAll_mapM his fun t _ i => Instr.stems_ofTree? t
  case jumpLabel =>
    intro name s h
    obtain ⟨leaf, -, rfl⟩ := Option.map_eq_some_iff.mp h
    exact stems_nil _
  case ifChain =>
    intro parts ih s h
    simp only [ofTree?, bind_eq_some, pure_eq_some] at h
    obtain ⟨branches, hbranches, rfl⟩ := h
    exact ih branches hbranches
  case ifChainElse =>
    intro parts ih s h
    simp only [ofTree?, bind_eq_some, pure_eq_some] at h
    obtain ⟨branches, hbranches, rfl⟩ := h
    exact ih branches hbranches
  case whileLoop =>
    intro cond body ih s h
    simp only [ofTree?, bind_eq_some, pure_eq_some] at h
    obtain ⟨cond', hcond, body', hbody, rfl⟩ := h
    exact (Expr.stems_ofTree? _ hcond).append (ih body' hbody).single
  case doWhileLoop =>
    intro cond body ih s h
    simp only [ofTree?, bind_eq_some, pure_eq_some] at h
    obtain ⟨cond', hcond, body', hbody, rfl⟩ := h
    exact (Expr.stems_ofTree? _ hcond).append (ih body' hbody).single
  case forLoop =>
    intro init cond step body ih s h
    simp only [ofTree?, bind_eq_some, pure_eq_some] at h
    obtain ⟨init', hinit, cond', hcond, step', hstep, body', hbody, rfl⟩ := h
    exact (Instr.stems_ofOptional? hinit).append ((Instr.stems_ofOptional? hcond).append
      ((Instr.stems_ofOptional? hstep).append (ih body' hbody).single))
  case switchOn =>
    intro selector cases ih s h
    simp only [ofTree?, bind_eq_some, pure_eq_some] at h
    obtain ⟨selector', hselector, parts, hparts, rfl⟩ := h
    exact (Expr.stems_ofTree? _ hselector).append ((ih parts hparts).node .cases).single
  case other =>
    intro t _ _ _ _ _ _ _ _ _ _ _ s h
    rw [ofTree?] at h
    · cases h
    all_goals assumption
  case noStatement =>
    intro body h
    cases h
    exact stemsAll_nil _
  case statement =>
    intro t rest ih ih' body h
    simp only [ofTree?.ofTrees?, bind_eq_some, pure_eq_some] at h
    obtain ⟨s, hs, body', hbody, rfl⟩ := h
    exact (ih s hs).append (ih' body' hbody)
  case noCase =>
    intro parts h
    cases h
    exact stemsAll_nil _
  case switchCase =>
    intro value body rest ih ih' parts h
    simp only [ofTree?.cases?, bind_eq_some, pure_eq_some] at h
    obtain ⟨label, hlabel, body', hbody, parts', hparts, rfl⟩ := h
    have hcase := ((stems_caseLabel? hlabel).append
      ((ih body' hbody).node .block).single).node .switchCase
    simpa [occurrences.occurrencesCases] using hcase.append (ih' parts' hparts)
  case otherCase =>
    intro ts _ _ parts h
    rw [ofTree?.cases?] at h
    · cases h
    all_goals assumption
  case noBranch =>
    intro parts h
    cases h
    exact stemsAll_nil _
  case elseBranch =>
    intro body ih parts h
    simp only [ofTree?.branches?, bind_eq_some, pure_eq_some] at h
    obtain ⟨s, hs, rfl⟩ := h
    exact ((ih s hs).single.node .elseBranch).single
  case ifBranch =>
    intro cond body rest ih ih' parts h
    simp only [ofTree?.branches?, bind_eq_some, pure_eq_some] at h
    obtain ⟨c, hc, s, hs, parts', hparts, rfl⟩ := h
    exact stemsAll_branch hc (ih s hs) (ih' parts' hparts)
  case elseIfBranch =>
    intro cond body rest ih ih' parts h
    simp only [ofTree?.branches?, bind_eq_some, pure_eq_some] at h
    obtain ⟨c, hc, s, hs, parts', hparts, rfl⟩ := h
    exact stemsAll_branch hc (ih s hs) (ih' parts' hparts)
  case otherBranch =>
    intro ts _ _ _ _ parts h
    rw [ofTree?.branches?] at h
    · cases h
    all_goals assumption

theorem stemsAll_ofTrees? {ts : List Tree} {body : List Stmt}
    (h : ofTree?.ofTrees? ts = some body) : StemsAll (occurrences.occurrencesAll body) ts := by
  induction ts generalizing body with
  | nil =>
    cases h
    exact stemsAll_nil _
  | cons t rest ih =>
    simp only [ofTree?.ofTrees?, bind_eq_some, pure_eq_some] at h
    obtain ⟨s, hs, body', hbody, rfl⟩ := h
    exact (stems_ofTree? t s hs).append (ih hbody)

end Stmt

/-! ## Whole programs -/

theorem Item.stems_ofTree? (t : Tree) {i : Item} (h : ofTree? t = some i) :
    Stems i.occurrences t := by
  have hdeclarators : ∀ {ts : List Tree} {ds : List Declarator},
      ts.mapM Declarator.ofTree? = some ds → StemsAll (ds.flatMap Declarator.occurrences) ts :=
    fun hds => stemsAll_mapM hds fun t _ d => Declarator.stems_ofTree? t
  unfold ofTree? at h
  split at h
  · split at h
    · cases h
      exact stems_nil _
    · cases h
  · rename_i name fields
    simp only [bind_eq_some, pure_eq_some] at h
    obtain ⟨leaf, -, fields', hfields, rfl⟩ := h
    exact StemsAll.skip ((hdeclarators hfields).node .structFields).single name
  · rename_i type name params body
    simp only [bind_eq_some, pure_eq_some] at h
    obtain ⟨typeName, htype, leaf, -, params', hparams, body', hbody, rfl⟩ := h
    have hparts := ((hdeclarators hparams).node .functionParameters).append
      ((Stmt.stemsAll_ofTrees? hbody).node .block).single
    exact (TypeName.stems_ofTree? htype).append (hparts.skip name)
  · rename_i type name params
    simp only [bind_eq_some, pure_eq_some] at h
    obtain ⟨typeName, htype, leaf, -, params', hparams, rfl⟩ := h
    have hparts := ((hdeclarators hparams).node .functionParameters).single
    exact (TypeName.stems_ofTree? htype).append (hparts.skip name)
  · obtain ⟨d, hd, rfl⟩ := Option.map_eq_some_iff.mp h
    exact Declaration.stems_ofTree? hd

namespace Program

theorem stems_ofTree? (t : Tree) {p : Program} (h : ofTree? t = some p) :
    Stems p.occurrences t := by
  unfold ofTree? at h
  split at h
  · simp only [bind_eq_some, pure_eq_some] at h
    obtain ⟨items, hitems, rfl⟩ := h
    exact stemsAll_mapM hitems fun t _ i => Item.stems_ofTree? t
  · cases h

/-- No two leaves of the program of a numbered tree have the same number. -/
theorem nodup_slotsOf_occurrences {t : Tree} {p : Program} (h : ofTree? t.numbered = some p) :
    (slotsOf p.occurrences).Nodup :=
  (Tree.nodup_slots_numbered t).sublist (stems_ofTree? _ h)

end Program

/-- Occurrences of the same number are the same occurrence. -/
theorem eq_of_slot?_eq {l : List Occurrence} (hl : (slotsOf l).Nodup) {o o' : Occurrence}
    {slot : Nat} (ho : o ∈ l) (ho' : o' ∈ l) (h : o.slot? = some slot) (h' : o'.slot? = some slot) :
    o = o' := by
  induction l with
  | nil => cases ho
  | cons first rest ih =>
    have happ : slotsOf (first :: rest) = first.slot?.toList ++ slotsOf rest := by
      cases hfirst : first.slot? <;> simp [slotsOf, hfirst]
    rw [happ] at hl
    obtain ⟨-, hrest, hapart⟩ := List.nodup_append.mp hl
    -- the number of the first one is not the number of another
    have hother : ∀ o ∈ rest, o.slot? = some slot → first.slot? ≠ some slot := by
      intro o ho h hfirst
      have hmem : slot ∈ slotsOf rest := List.mem_filterMap.mpr ⟨o, ho, h⟩
      exact hapart slot (by simp [hfirst]) slot hmem rfl
    rcases List.mem_cons.mp ho with rfl | hin <;> rcases List.mem_cons.mp ho' with rfl | hin'
    · rfl
    · exact absurd h (hother o' hin' h')
    · exact absurd h' (hother o hin h)
    · exact ih hrest hin hin'

end MiniC
