import MiniC.Proofs.Analyses
import MiniC.Proofs.Jumps
import MiniC.Proofs.Scoping.Grown

set_option autoImplicit false

/-! # The discipline of the scopes

The analysis opens and leaves scopes in many places, and nothing takes care of them when it stops
with an error. Still, its scopes are a tree at every moment. What is looked at with success is left
in the scope in which it began; it adds names to that scope only, none of which was there, and
labels and jumps only to the scope of the function around it. -/

namespace MiniC

namespace Check

open Traced

variable {R : Entity → Entity → Prop} {α β : Type} {a : Analysis}

/-- Whether the analysis of something that begins in a state keeps the scopes a tree, and changes
those that were there by `R` and only where it may, also if it stops with an error; and if it does
not, it ends in the scope in which it began. -/
structure Disciplined (R : Entity → Entity → Prop) (x : Check α) (a : Analysis) : Prop where
  tree : ∀ t ∈ x.states a, t.IsTree
  inside : ∀ t ∈ x.states a, t.current.isSome
  grown : ∀ t ∈ x.states a, a.Grown R t
  current : ∀ r t, x.exec a = .ok r t → t.current = a.current

/-- Whether the analysis of something is disciplined wherever it begins. -/
def Scoped (R : Entity → Entity → Prop) (x : Check α) : Prop :=
  ∀ a, a.IsTree → a.current.isSome → Disciplined R x a

/-! ## Small steps -/

theorem mem_states_modify {f : Analysis → Analysis} {t : Analysis}
    (h : t ∈ (modify f : Check PUnit).states a) : t = a ∨ t = f a := by
  simpa [states, after] using h

/-- A step that looks at the state goes on from it. -/
theorem Disciplined.get_bind {f : Analysis → Check α} (h : Disciplined R (f a) a) :
    Disciplined R (get >>= f) a :=
  ⟨h.tree, h.inside, h.grown, h.current⟩

section

variable (hrefl : ∀ e, R e e)

include hrefl

theorem disciplined_of_still {x : Check α} (h : ∀ t ∈ x.states a, t = a) (ha : a.IsTree)
    (hinside : a.current.isSome) : Disciplined R x a where
  tree t ht := h t ht ▸ ha
  inside t ht := h t ht ▸ hinside
  grown t ht := .of_scopes hrefl (by rw [h t ht])
  current r t hexec := by
    have ht : x.after a = t := after_of_ok hexec
    rw [h t (ht ▸ mem_states_after x a)]

theorem disciplined_reject {f : α → Check β} (cause : SemanticCause) (pos : Position)
    (ha : a.IsTree) (hinside : a.current.isSome) : Disciplined R (failAt cause pos >>= f) a := by
  refine disciplined_of_still hrefl (fun t ht => ?_) ha hinside
  rcases mem_states_bind ht with ht | ⟨_, _, hexec, -⟩
  · simpa [states, after, failAt, fail] using ht
  · cases hexec

theorem disciplined_modify {f : Analysis → Analysis} (ha : a.IsTree) (hinside : a.current.isSome)
    (htree : (f a).IsTree) (hgrown : a.Grown R (f a)) (hcurrent : (f a).current = a.current) :
    Disciplined R (modify f : Check PUnit) a where
  tree t ht := by
    rcases mem_states_modify ht with rfl | rfl
    · exact ha
    · exact htree
  inside t ht := by
    rcases mem_states_modify ht with rfl | rfl
    · exact hinside
    · rwa [hcurrent]
  grown t ht := by
    rcases mem_states_modify ht with rfl | rfl
    · exact .of_scopes hrefl rfl
    · exact hgrown
  current r t hexec := by
    cases hexec
    exact hcurrent

/-- A change of other things than the scopes. -/
theorem scoped_modify {f : Analysis → Analysis}
    (hf : ∀ a, (f a).scopes = a.scopes ∧ (f a).current = a.current) :
    Scoped R (modify f : Check PUnit) := fun a ha hinside =>
  disciplined_modify hrefl ha hinside (ha.congr (hf a).1 (hf a).2) (.of_scopes hrefl (hf a).1)
    (hf a).2

/-- A change of one scope. -/
theorem disciplined_modifyScope (ha : a.IsTree) (hinside : a.current.isSome) (k : Nat)
    {f : StaticScope → StaticScope} (hf : ∀ s, a.scopes[k]? = some s → (f s).Sound ∧
      s.Grows R (a.current = some k) (a.functionScope? = some k) (f s)) :
    Disciplined R (modifyScope k f) a := by
  refine disciplined_modify hrefl ha hinside (ha.modify k fun s hs => ?_)
    (.modify hrefl k fun s hs => (hf s hs).2) rfl
  obtain ⟨hsound, hgrows⟩ := hf s hs
  exact ⟨hgrows.parent, hgrows.kind, hsound⟩

/-- A name gets a meaning in the current scope, where what it stood for may become that. -/
theorem disciplined_put (ha : a.IsTree) (hinside : a.current.isSome) {id : Nat} {e : Entity}
    (hold : ∀ old, a.lookupHere id = some old → R old e) : Disciplined R (put id e) a := by
  refine .get_bind ?_
  split
  · exact disciplined_of_still hrefl (by simp [states, after]) ha hinside
  next i hi =>
    refine disciplined_modifyScope hrefl ha hinside i fun s hs => ⟨(ha.sound i s hs).put id e, ?_⟩
    have hput : s.Grows R True False (s.put id e) := by
      refine .put hrefl fun old hlookup => hold old ?_
      rw [Analysis.lookupHere, hi, Option.bind_some, hs, Option.bind_some, hlookup]
    exact hput.imp (fun _ => hi) False.elim

/-- Only a name that is new in the current scope is declared there. -/
theorem scoped_declare (v : Variable) : Scoped R (declare v) := by
  intro a ha hinside
  refine .get_bind ?_
  split
  · exact disciplined_of_still hrefl (by simp [states, after, failAt, fail]) ha hinside
  next hnone =>
    refine disciplined_put hrefl ha hinside fun old hold => ?_
    rw [hnone] at hold
    cases hold

/-- Labels and jumps are added in the innermost function scope. -/
theorem disciplined_mark (ha : a.IsTree) (hinside : a.current.isSome) {i : Nat}
    (hi : a.functionScope? = some i) {f : StaticScope → StaticScope}
    (hf : ∀ s, ∃ labels gotos, s.labels <+: labels ∧ s.gotos <+: gotos ∧
      f s = { s with labels, gotos }) : Disciplined R (modifyScope i f) a := by
  refine disciplined_modifyScope hrefl ha hinside i fun s hs => ?_
  have hkind := Analysis.kind_of_functionScope? hi hs
  have hgrows : s.Grows R False True (f s) := by
    obtain ⟨labels, gotos, hlabels, hgotos, heq⟩ := hf s
    exact heq ▸ .mark hrefl hlabels hgotos
  refine ⟨⟨?_, fun hother => ?_⟩, hgrows.imp False.elim fun _ => hi⟩
  · rw [hgrows.named not_false]
    exact (ha.sound i s hs).ids
  · exact absurd (hgrows.kind.trans hkind) hother

theorem scoped_label (name : Leaf) : Scoped R (label name) := by
  intro a ha hinside
  refine .get_bind ?_
  split
  · exact disciplined_of_still hrefl (by simp [states, after, failAt, fail]) ha hinside
  next i hi =>
    dsimp only
    split
    · exact disciplined_reject hrefl _ _ ha hinside
    · exact disciplined_mark hrefl ha hinside hi fun s =>
        ⟨_, _, List.prefix_append _ _, List.prefix_rfl, rfl⟩

theorem scoped_goto (name : Leaf) : Scoped R (instr (.goto name)) := by
  intro a ha hinside
  refine .get_bind ?_
  split
  · exact disciplined_of_still hrefl (by simp [states, after, failAt, fail]) ha hinside
  next i hi =>
    exact disciplined_mark hrefl ha hinside hi fun s =>
      ⟨_, _, List.prefix_rfl, List.prefix_append _ _, rfl⟩

end

/-! ## Steps put together -/

section

variable (hrefl : ∀ e, R e e) (htrans : ∀ ⦃d e e'⦄, R d e → R e e' → R d e')

include htrans

theorem Disciplined.bind {x : Check α} {f : α → Check β} (hfirst : Disciplined R x a)
    (ha : a.IsTree) (hf : ∀ r, Scoped R (f r)) : Disciplined R (x >>= f) a := by
  have hsecond {r : α} {b : Analysis} (hexec : x.exec a = .ok r b) :
      Disciplined R (f r) b ∧ b.current = a.current ∧ a.Grown R b := by
    have hb : b ∈ x.states a := after_of_ok hexec ▸ mem_states_after x a
    exact ⟨hf r b (hfirst.tree b hb) (hfirst.inside b hb), hfirst.current r b hexec,
      hfirst.grown b hb⟩
  constructor
  · intro t ht
    rcases mem_states_bind ht with ht | ⟨r, b, hexec, ht⟩
    · exact hfirst.tree t ht
    · exact (hsecond hexec).1.tree t ht
  · intro t ht
    rcases mem_states_bind ht with ht | ⟨r, b, hexec, ht⟩
    · exact hfirst.inside t ht
    · exact (hsecond hexec).1.inside t ht
  · intro t ht
    rcases mem_states_bind ht with ht | ⟨r, b, hexec, ht⟩
    · exact hfirst.grown t ht
    · obtain ⟨hdisciplined, hcurrent, hgrown⟩ := hsecond hexec
      exact hgrown.trans htrans ha hcurrent (hdisciplined.grown t ht)
  · intro r t hexec
    obtain ⟨r', b, hx, hf, -⟩ := exec_bind_eq_ok hexec
    obtain ⟨hdisciplined, hcurrent, -⟩ := hsecond hx
    exact (hdisciplined.current r t hf).trans hcurrent

theorem Scoped.bind {x : Check α} {f : α → Check β} (hx : Scoped R x) (hf : ∀ r, Scoped R (f r)) :
    Scoped R (x >>= f) :=
  fun a ha hinside => (hx a ha hinside).bind htrans ha hf

omit htrans in
/-- The moments in a scope of its own. -/
theorem mem_states_scope {body : Check Unit} {kind : ScopeKind} {f : Option Signature}
    {t : Analysis} (h : t ∈ (do enter kind f; body; leave : Check Unit).states a) :
    t = a ∨ t ∈ body.states (a.entered kind f) ∨
      ∃ b, body.exec (a.entered kind f) = .ok () b ∧ t = b.left := by
  rcases mem_states_bind h with h | ⟨_, b, henter, h⟩
  · rcases mem_states_modify h with rfl | rfl
    · exact .inl rfl
    · exact .inr (.inl (mem_states_start body _))
  · cases henter
    rcases mem_states_bind h with h | ⟨_, c, hexec, h⟩
    · exact .inr (.inl h)
    · rcases mem_states_modify h with rfl | rfl
      · exact .inr (.inl (after_of_ok hexec ▸ mem_states_after body _))
      · exact .inr (.inr ⟨c, hexec, rfl⟩)

include hrefl

omit htrans in
/-- What is looked at in a scope of its own changes the scopes around as little as it would there,
and afterwards that scope is left. -/
theorem Scoped.scope {body : Check Unit} (kind : ScopeKind) (f : Option Signature)
    (hbody : Scoped R body) : Scoped R (do enter kind f; body; leave) := by
  intro a ha hinside
  obtain ⟨i, hi⟩ := Option.isSome_iff_exists.mp hinside
  have hsize : a.scopes.size ≠ 0 := Nat.ne_of_gt (Nat.zero_lt_of_lt (ha.current_lt i hi))
  have htree : (a.entered kind f).IsTree :=
    ha.entered f (by simp [hi, hsize]) fun h => absurd h hsize
  have hbody := hbody _ htree rfl
  -- the scope is left at the end of the body only
  have hleft {b : Analysis} (hexec : body.exec (a.entered kind f) = .ok () b) :
      b.left.IsTree ∧ b.left.current = a.current ∧ a.Grown R b.left := by
    have hb : b ∈ body.states (a.entered kind f) := after_of_ok hexec ▸ mem_states_after body _
    have hgrown := hbody.grown b hb
    exact ⟨(hbody.tree b hb).left, hgrown.current_left (hbody.current _ b hexec),
      (hgrown.of_entered ha).congr rfl⟩
  constructor
  · intro t ht
    rcases mem_states_scope ht with rfl | ht | ⟨b, hexec, rfl⟩
    · exact ha
    · exact hbody.tree t ht
    · exact (hleft hexec).1
  · intro t ht
    rcases mem_states_scope ht with rfl | ht | ⟨b, hexec, rfl⟩
    · exact hinside
    · exact hbody.inside t ht
    · rw [(hleft hexec).2.1]
      exact hinside
  · intro t ht
    rcases mem_states_scope ht with rfl | ht | ⟨b, hexec, rfl⟩
    · exact .of_scopes hrefl rfl
    · exact (hbody.grown t ht).of_entered ha
    · exact (hleft hexec).2.2
  · intro r t hexec
    obtain ⟨_, b, henter, hrest, -⟩ := exec_bind_eq_ok hexec
    obtain ⟨_, c, hbody, hleave, -⟩ := exec_bind_eq_ok hrest
    cases henter
    cases hleave
    exact (hleft hbody).2.1

include htrans

/-- All small steps are disciplined, but for the declarations of functions. -/
theorem scoped_declaring (l : List Occurrence) : Declaring (Scoped R) l := by
  have hclosed : Closed (Scoped R) := {
    pure := fun r a => disciplined_of_still hrefl (by simp [states, after])
    bind := Scoped.bind htrans
    fail := fun cause pos a => disciplined_of_still hrefl (by simp [states, after, fail])
    get := fun a => disciplined_of_still hrefl (by simp [states, after]) }
  have hnote (finding : Finding) : Scoped R (note finding) := fun a =>
    disciplined_of_still hrefl (by simp [states, after])
  have hannotate (slot : Nat) (t : CType) : Scoped R (annotate slot t) :=
    hclosed.annotate (scoped_modify hrefl fun _ => ⟨rfl, rfl⟩)
  exact {
    toClosed := hclosed
    note := hnote
    variableType := fun leaf _ => hclosed.variableType hnote (hannotate leaf.slot)
    literal := fun leaf kind _ => hannotate leaf.slot kind.ctype
    resolve := fun name _ => hclosed.resolve (hannotate name.slot)
    declare := scoped_declare hrefl
    label := scoped_label hrefl
    goto := scoped_goto hrefl
    scope := fun kind f => Scoped.scope hrefl kind f
    structs := fun f => scoped_modify hrefl fun _ => ⟨rfl, rfl⟩ }

end

/-! ## Statements, expressions and declarations -/

theorem scoped_eq (l : List Occurrence) : Declaring (Scoped Eq) l :=
  scoped_declaring (fun _ => rfl) (fun _ _ _ => Eq.trans) l

theorem scoped_becomes (l : List Occurrence) : Declaring (Scoped Entity.Becomes) l :=
  scoped_declaring .same (fun _ _ _ => .trans) l

/-- A function is declared as a new one, or gets its body if it had none. -/
theorem scoped_signature (name : Token) (returnType : CType) (params : List Variable)
    (hasBody : Bool) : Scoped Entity.Becomes (signature name returnType params hasBody) := by
  intro a ha hinside
  have hclosed : Closed (Scoped Entity.Becomes) := (scoped_becomes []).toClosed
  have hput {f : Signature} {e : Entity} (hold : ∀ old, a.lookupHere name.id = some old →
      old.Becomes e) : Disciplined Entity.Becomes (put name.id e >>= fun _ => pure f) a :=
    (disciplined_put .same ha hinside hold).bind (fun _ _ _ => .trans) ha fun _ => hclosed.pure f
  refine .get_bind ?_
  split
  next f hhere =>
    dsimp only
    split
    · exact disciplined_reject .same _ _ ha hinside
    next hbodies =>
      split
      · exact disciplined_reject .same _ _ ha hinside
      split
      next hbody =>
        refine hput fun old hold => ?_
        rw [hhere] at hold
        cases hold
        exact .body (by simpa [hbody] using hbodies) rfl rfl rfl
      · exact hclosed.pure f a ha hinside
  · exact hclosed.failAt _ _ a ha hinside
  next hnone =>
    refine hput fun old hold => ?_
    rw [hnone] at hold
    cases hold

theorem scoped_item (i : Item) : Scoped Entity.Becomes (item i) := by
  have hdeclaring := scoped_becomes i.occurrences
  refine hdeclaring.item i (List.Subset.refl _) fun head hhead => ?_
  exact hdeclaring.declareHead hhead (List.Subset.refl _) scoped_signature

end Check

/-! ## Programs -/

namespace Analysis

theorem isTree_entered_start : (start.entered .global none).IsTree :=
  isTree_start.entered none (by simp [start]) fun _ => rfl

end Analysis

namespace Program

open Check

/-- At every moment of the analysis of a program, the scopes are a tree, in which every search that
goes outwards from the current scope ends at the global scope; and but for the start and the end,
there is a current scope. -/
theorem searched_of_mem_states {p : Program} {a : Analysis}
    (ha : a ∈ (Check.program p).states .start) :
    a.IsTree ∧ (∀ i, a.current = some i → ∃ is, a.Searched is) ∧
      (a.current = none → a = .start ∨ a = (Check.program p).after .start) := by
  have hitems : Scoped Entity.Becomes (p.items.forM item) :=
    (scoped_becomes []).forM fun i _ => scoped_item i
  have hbody := hitems _ Analysis.isTree_entered_start rfl
  rcases mem_states_scope ha with rfl | ha | ⟨b, hexec, rfl⟩
  · exact ⟨Analysis.isTree_start, nofun, fun _ => .inl rfl⟩
  · refine ⟨hbody.tree a ha, fun i hi => (hbody.tree a ha).searched hi, fun hnone => ?_⟩
    have hinside := hbody.inside a ha
    rw [hnone] at hinside
    cases hinside
  · have hb : b ∈ (p.items.forM item).states _ :=
      Traced.after_of_ok hexec ▸ Traced.mem_states_after _ _
    have hend : (Check.program p).exec .start = .ok () b.left :=
      Traced.exec_bind_of_ok (fun _ => leave) hexec
    refine ⟨(hbody.tree b hb).left, fun i hi => (hbody.tree b hb).left.searched hi, fun _ => ?_⟩
    exact .inr (Traced.after_of_ok hend).symm

/-- The scopes of the analysis of a program are a tree at every moment, in which every search ends
at the global scope. Wherever a statement, an expression, an instruction or a declaration is looked
at, also if that ends with an error, names are added to the current scope only, none of which was
there, and labels and jumps only to the scope of the function around; if it does not, the current
scope is the same afterwards. A piece of a program may also give a function its body. -/
theorem scopes_disciplined (p : Program) :
    (∀ a ∈ (Check.program p).states .start,
      a.IsTree ∧ (∀ i, a.current = some i → ∃ is, a.Searched is) ∧
        (a.current = none → a = .start ∨ a = (Check.program p).after .start)) ∧
    ∀ a : Analysis, a.IsTree → a.current.isSome →
      (∀ s, Disciplined Eq (stmt s) a) ∧ (∀ e, Disciplined Eq (exprType e) a) ∧
        (∀ i, Disciplined Eq (instr i) a) ∧ (∀ d, Disciplined Eq (declaration d) a) ∧
        ∀ i, Disciplined Entity.Becomes (item i) a := by
  refine ⟨fun a => searched_of_mem_states, fun a ha hinside => ⟨fun s => ?_, fun e => ?_, fun i => ?_,
    fun d => ?_, fun i => scoped_item i a ha hinside⟩⟩
  · exact (scoped_eq s.occurrences).stmt s (List.Subset.refl _) a ha hinside
  · exact (scoped_eq e.occurrences).exprType e (List.Subset.refl _) a ha hinside
  · exact (scoped_eq i.occurrences).instr i (List.Subset.refl _) a ha hinside
  · exact (scoped_eq (Instr.declare d).occurrences).instr (.declare d) (List.Subset.refl _) a ha
      hinside

/-- A function with a loop, a jump out of it and a label: the function, its body, the loop, the block
in it and the branch in that each have a scope in the one before, and the label and the jump are
recorded in that of the function. -/
theorem scopes_disciplined_leaving :
    let last := (Check.program leaving).after .start
    last.IsTree ∧
      last.scopes.toList.map (·.parent) = [none, some 0, some 1, some 2, some 3, some 4] ∧
      last.scopes.toList.map (·.labels) = [[], ["out"], [], [], [], []] ∧
      ∀ s ∈ leavingMain.body, Disciplined Eq (stmt s) (Analysis.start.entered .global none) := by
  have h := scopes_disciplined leaving
  refine ⟨(h.1 _ (Traced.mem_states_after _ _)).1, by cbv, by cbv, fun s _ => ?_⟩
  exact (h.2 _ Analysis.isTree_entered_start rfl).1 s

end Program

end MiniC
