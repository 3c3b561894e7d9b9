import MiniC.Proofs.Annotations.Slots
import MiniC.Proofs.Calls
import MiniC.Proofs.Linkage

set_option autoImplicit false

/-! # Variables that are written by their names

The type of a name is that of the variable which the analysis takes it for, since every name has its
own number, and types are written down under these. So a name that is assigned to or stepped in an
accepted program is that of a variable which is not read-only. -/

namespace MiniC

namespace Check

open Traced

variable {α β : Type} {l : List Occurrence}

/-! ## Types that are written down for names -/

/-- Whether a step of the analysis takes an occurrence of a name for a variable of a type. -/
def Takes (x : Check α) (a : Analysis) (leaf : Leaf) (t : CType) : Prop :=
  ∃ v, v.type = t ∧ ∃ moment ∈ x.trace a, moment.deed = some (.meaning leaf (.variable v))

/-- Whether each type that a step of the analysis writes down for a name is that of a variable which
it takes the name for. -/
def Marks (l : List Occurrence) (x : Check α) : Prop :=
  ∀ a, ∀ b ∈ x.states a, ∀ leaf t, .expr (.identifier leaf) ∈ l →
    b.annotations[leaf.slot]? = some t → a.annotations[leaf.slot]? = some t ∨ Takes x a leaf t

theorem Marks.bind {x : Check α} {f : α → Check β} (hx : Marks l x) (hf : ∀ r, Marks l (f r)) :
    Marks l (x >>= f) := by
  intro a b hb leaf t hleaf ht
  have hfirst : ∀ c ∈ x.states a, c.annotations[leaf.slot]? = some t →
      a.annotations[leaf.slot]? = some t ∨ Takes (x >>= f) a leaf t := by
    intro c hc ht
    refine (hx a c hc leaf t hleaf ht).imp_right ?_
    rintro ⟨v, hv, moment, hmoment, hdeed⟩
    exact ⟨v, hv, moment, trace_subset_bind x f a hmoment, hdeed⟩
  rcases mem_states_bind hb with hb | ⟨r, c, hexec, hb⟩
  · exact hfirst b hb ht
  · rcases hf r c b hb leaf t hleaf ht with ht | ⟨v, hv, moment, hmoment, hdeed⟩
    · refine hfirst c ?_ ht
      rw [← after_of_ok hexec]
      exact mem_states_after x a
    · refine .inr ⟨v, hv, moment, ?_, hdeed⟩
      rw [trace_bind_of_ok f hexec]
      exact List.mem_append_right _ hmoment

/-- A step that writes down nothing for names. -/
theorem marks_of_preserves {x : Check α} (hx : ∀ leaf, .expr (.identifier leaf) ∈ l → ∀ known,
    Preserves (fun a : Analysis => a.annotations[leaf.slot]? = known) x) : Marks l x :=
  fun a b hb leaf _ hleaf ht => .inl ((hx leaf hleaf _ a rfl b hb).symm.trans ht)

theorem marks_of_still {x : Check α} (hx : ∀ a, x.trace a = [] ∧ x.after a = a) : Marks l x :=
  marks_of_preserves fun _ _ _ => preserves_of_still hx

theorem marks_modify {f : Analysis → Analysis} (hf : ∀ a, (f a).annotations = a.annotations) :
    Marks l (modify f : Check PUnit) :=
  marks_of_preserves fun _ _ _ => preserves_of_change (fun _ => ⟨rfl, rfl⟩) fun a ha => by
    rw [hf]
    exact ha

theorem closed_marks (l : List Occurrence) : Closed (Marks l) where
  pure _ := marks_of_still fun _ => ⟨rfl, rfl⟩
  bind := Marks.bind
  fail _ _ := marks_of_still fun _ => ⟨rfl, rfl⟩
  get := marks_of_still fun _ => ⟨rfl, rfl⟩

/-- Writing down a type for one leaf leaves the types of the others alone. -/
theorem known_of_annotate {slot slot' : Nat} {t t' : CType} {a b : Analysis}
    (hb : b ∈ (annotate slot t).states a) (h : b.annotations[slot']? = some t') :
    a.annotations[slot']? = some t' ∨ slot' = slot ∧ t' = t := by
  have hpreserves : Preserves (fun b : Analysis => ∀ slot' t', b.annotations[slot']? = some t' →
      a.annotations[slot']? = some t' ∨ slot' = slot ∧ t' = t) (annotate slot t) := by
    refine Preserves.bind (preserves_of_still fun _ => ⟨rfl, rfl⟩) fun c => ?_
    split
    · exact preserves_of_still fun _ => ⟨rfl, rfl⟩
    · refine Preserves.bind ?_ fun _ => preserves_of_still fun _ => ⟨rfl, rfl⟩
      refine preserves_of_change (fun _ => ⟨rfl, rfl⟩) fun b hb slot' t' h => ?_
      rw [Std.HashMap.getElem?_insert] at h
      split at h
      · rename_i heq
        cases h
        exact .inr ⟨(eq_of_beq heq).symm, rfl⟩
      · exact hb slot' t' h
  exact hpreserves a (fun _ _ => .inl) b hb slot' t' h

section

variable (hl : (slotsOf l).Nodup)

include hl

/-- What is written down for a leaf that is no name is not written down for a name. -/
theorem marks_annotate {o : Occurrence} {slot : Nat} (ho : o ∈ l) (hslot : o.slot? = some slot)
    (hname : ∀ leaf, o ≠ .expr (.identifier leaf)) (t : CType) : Marks l (annotate slot t) := by
  intro a b hb leaf t' hleaf ht
  rcases known_of_annotate hb ht with ht | ⟨rfl, -⟩
  · exact .inl ht
  · exact absurd (eq_of_slot?_eq hl ho hleaf hslot rfl) (hname leaf)

theorem marks_variableType {leaf : Leaf} (hleaf : .expr (.identifier leaf) ∈ l) :
    Marks l (variableType leaf) := by
  refine Marks.bind (marks_of_still fun _ => ⟨rfl, rfl⟩) fun c => ?_
  split
  · exact (closed_marks l).failAt _ _
  · exact (closed_marks l).failAt _ _
  · rename_i v _
    intro a b hb leaf' t hleaf' ht
    rcases mem_states_bind hb with hb | ⟨_, _, hnote, hb⟩
    · obtain rfl : b = a := by simpa [states, after] using hb
      exact .inl ht
    · cases hnote
      rcases known_of_annotate hb ht with ht | ⟨hslot, rfl⟩
      · exact .inl ht
      · -- the name is the one that was just taken for the variable
        cases eq_of_slot?_eq hl hleaf' hleaf rfl (congrArg some hslot.symm)
        exact .inr ⟨v, rfl, _, trace_subset_bind _ _ a (List.mem_singleton_self _), rfl⟩

theorem declaring_marks : Declaring (Marks l) l where
  toClosed := closed_marks l
  note _ := marks_of_preserves fun _ _ _ =>
    preserves_of_change (g := id) (fun _ => ⟨rfl, rfl⟩) fun _ ha => ha
  variableType _ hleaf := marks_variableType hl hleaf
  literal leaf kind hleaf := marks_annotate hl hleaf rfl (fun _ h => by cases h) _
  resolve name hname := (closed_marks l).resolve fun t =>
    marks_annotate hl hname rfl (fun _ h => by cases h) t
  declare := (closed_marks l).declare fun _ _ _ => marks_modify fun _ => rfl
  label := (closed_marks l).label fun _ _ _ => marks_modify fun _ => rfl
  goto := (closed_marks l).goto fun _ _ _ => marks_modify fun _ => rfl
  scope kind f hbody := by
    have henter : Marks l (enter kind f) := marks_modify fun _ => rfl
    have hleave : Marks l leave := marks_modify fun _ => rfl
    exact henter.bind fun _ => Marks.bind hbody fun _ => hleave
  structs _ := marks_modify fun _ => rfl

end

end Check

namespace Program

variable {p : Program}

/-- A type that is written down for a name is that of a variable which the name is resolved to. -/
theorem resolves_of_known (hslots : (slotsOf p.occurrences).Nodup) {a : Analysis}
    (ha : a ∈ (Check.program p).states .start) {leaf : Leaf} {t : CType}
    (hleaf : .expr (.identifier leaf) ∈ p.occurrences) (ht : a.annotations[leaf.slot]? = some t) :
    ∃ v, p.Resolves leaf (.variable v) ∧ v.type = t := by
  have hmarks : Check.Marks p.occurrences (Check.program p) := by
    have hdeclaring := Check.declaring_marks hslots
    refine hdeclaring.program p fun i hi head hhead => ?_
    refine hdeclaring.declareHead hhead (fun _ ho => List.mem_flatMap_of_mem hi ho) ?_
    exact hdeclaring.signature fun _ _ _ => Check.marks_modify fun _ => rfl
  rcases hmarks .start a ha leaf t hleaf ht with ht | ⟨v, hv, hmoment⟩
  · rw [Analysis.start, Std.HashMap.getElem?_empty] at ht
    cases ht
  · exact ⟨v, hmoment, hv⟩

end Program

/-! ## Types of names -/

namespace Check

open Traced

variable {α β : Type}

/-- The type of a name is what was written down for it, or that of the variable that it is taken
for. -/
theorem takes_of_variableType {leaf : Leaf} {a b : Analysis} {t : CType}
    (h : (variableType leaf).exec a = .ok t b) :
    ∃ v, ⟨some (.meaning leaf (.variable v)), a⟩ ∈ (variableType leaf).trace a ∧
      (a.annotations[leaf.slot]? = some t ∨ t = v.type) := by
  obtain ⟨_, _, hget, hrest, htrace⟩ := exec_bind_eq_ok h
  cases hget
  rw [variableType, htrace]
  cases hlookup : a.lookup leaf.token.id with
  | none =>
    simp only [hlookup] at hrest
    cases hrest
  | some e =>
    cases e with
    | function f =>
      simp only [hlookup] at hrest
      cases hrest
    | «variable» v =>
      simp only [hlookup] at hrest ⊢
      refine ⟨v, List.mem_append_right _ (trace_subset_bind _ _ a (List.mem_singleton_self _)), ?_⟩
      obtain ⟨_, _, hnote, hannotate, -⟩ := exec_bind_eq_ok hrest
      cases hnote
      obtain ⟨_, _, hget, hannotate, -⟩ := exec_bind_eq_ok hannotate
      cases hget
      split at hannotate
      · rename_i hknown
        cases hannotate
        exact .inl hknown
      · cases hannotate
        exact .inr rfl

/-- A step that goes through has come past a rule that it begins with. -/
theorem passes_of_reject {c : Prop} [Decidable c] {cause : SemanticCause} {pos : Position}
    {f : α → Check β} {x : Check β} {a b : Analysis} {r : β}
    (h : (if c then failAt cause pos >>= f else x).exec a = .ok r b) :
    ¬c ∧ (if c then failAt cause pos >>= f else x) = x := by
  by_cases hc : c
  · rw [if_pos hc] at h
    cases h
  · exact ⟨hc, if_neg hc⟩

/-- Whether the type of an expression is found by a step of the analysis, and is not read-only. -/
def FindsWritable (x : Check α) (a : Analysis) (e : Expr) : Prop :=
  ∃ t b, (exprType e).exec a = .ok t b ∧ (exprType e).trace a ⊆ x.trace a ∧ t.isReadOnly = false

/-- What is assigned to is not read-only. -/
theorem findsWritable_of_assign {op : Option ArithOp} {left right : Expr} {a b : Analysis}
    {t : CType} (h : (exprType (.assign op left right)).exec a = .ok t b) :
    FindsWritable (exprType (.assign op left right)) a left := by
  rw [exprType] at h ⊢
  obtain ⟨-, hplace⟩ := passes_of_reject h
  rw [hplace] at h ⊢
  obtain ⟨l, c, hl, hrest, -⟩ := exec_bind_eq_ok h
  obtain ⟨hwritable, -⟩ := passes_of_reject hrest
  exact ⟨l, c, hl, trace_subset_bind _ _ a, Bool.eq_false_iff.mpr hwritable⟩

/-- What is stepped is not read-only. -/
theorem findsWritable_of_step {op : StepOp} {e : Expr} {a b : Analysis} {t : CType}
    (h : (exprType (.step op e)).exec a = .ok t b) :
    FindsWritable (exprType (.step op e)) a e := by
  rw [exprType] at h ⊢
  obtain ⟨-, hplace⟩ := passes_of_reject h
  rw [hplace] at h ⊢
  obtain ⟨s, c, hs, hrest, -⟩ := exec_bind_eq_ok h
  obtain ⟨-, hstruct⟩ := passes_of_reject hrest
  rw [hstruct] at hrest
  obtain ⟨hwritable, -⟩ := passes_of_reject hrest
  exact ⟨s, c, hs, trace_subset_bind _ _ a, Bool.eq_false_iff.mpr hwritable⟩

end Check

namespace Program

variable {p : Program}

/-- The type that the analysis finds for a name is that of a variable which it resolves the name
to. -/
theorem resolves_of_exprType (hslots : (slotsOf p.occurrences).Nodup) (e : Expr) {leaf : Leaf}
    (hname : e.name? = some leaf) (he : .expr e ∈ p.occurrences) {a b : Analysis} {t : CType}
    (ha : a ∈ (Check.program p).states .start) (hexec : (Check.exprType e).exec a = .ok t b)
    (htrace : (Check.exprType e).trace a ⊆ (Check.program p).trace .start) :
    ∃ v, p.Resolves leaf (.variable v) ∧ v.type = t := by
  induction e using Expr.name?.induct with
  | case1 leaf' =>
    cases hname
    rw [Check.exprType] at hexec htrace
    obtain ⟨v, hmoment, hknown | rfl⟩ := Check.takes_of_variableType hexec
    · exact resolves_of_known hslots ha he hknown
    · exact ⟨v, ⟨_, htrace hmoment, rfl⟩, rfl⟩
  | case2 e ih =>
    rw [Check.exprType] at hexec htrace
    refine ih hname (p.whole_occurrences _ he _ ?_) hexec htrace
    exact List.mem_cons_of_mem _ e.mem_occurrences_self
  | case3 e hidentifier hparens =>
    rw [Expr.name?] at hname
    · cases hname
    · exact hidentifier
    · exact hparens

/-- The variable of a name that is assigned to or stepped is not read-only. -/
theorem writable_of_target (hnumbered : p.Numbered) (hslots : (slotsOf p.occurrences).Nodup)
    (haccepted : p.Accepted) {e : Expr} (he : .expr e ∈ p.code)
    (haddress : ∀ e', e ≠ .unary .address e') {leaf : Leaf} (hleaf : leaf ∈ e.target?)
    {v : Variable} (hv : p.Resolves leaf (.variable v)) : v.type.isReadOnly = false := by
  have hwritable : ∀ e' a, a ∈ (Check.program p).states .start → .expr e' ∈ e.occurrences →
      e'.name? = some leaf → Check.FindsWritable (Check.exprType e) a e' →
      (Check.exprType e).trace a ⊆ (Check.program p).trace .start → v.type.isReadOnly = false := by
    rintro e' a ha hpart hname ⟨t, b, hexec, htrace, hwritable⟩ htrace'
    have hmem := p.whole_occurrences e (p.code_subset he) _ hpart
    obtain ⟨v', hv', rfl⟩ := resolves_of_exprType hslots e' hname hmem ha hexec
      (List.Subset.trans htrace htrace')
    cases resolves_unique hnumbered hv hv'
    exact hwritable
  cases e with
  | assign op left right =>
    obtain ⟨a, ha, t, b, hexec, htrace⟩ := looks_of_accepted haccepted rfl he
    refine hwritable left a ha ?_ hleaf (Check.findsWritable_of_assign hexec) htrace.subset
    exact List.mem_cons_of_mem _ (List.mem_append_left _ left.mem_occurrences_self)
  | step op e' =>
    obtain ⟨a, ha, t, b, hexec, htrace⟩ := looks_of_accepted haccepted rfl he
    refine hwritable e' a ha ?_ hleaf (Check.findsWritable_of_step hexec) htrace.subset
    exact List.mem_cons_of_mem _ e'.mem_occurrences_self
  | unary op e' =>
    cases op with
    | address => exact absurd rfl (haddress e')
    | _ => cases hleaf
  | _ => cases hleaf

end Program

end MiniC
