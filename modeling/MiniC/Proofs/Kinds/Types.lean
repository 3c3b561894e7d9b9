import MiniC.Proofs.Annotations
import MiniC.Proofs.Kinds.Conversions

set_option autoImplicit false

/-! # The kinds of types

The type that the analysis finds for an arithmetic expression is of the kind that the conversions
say. The analysis writes down the types of names and literals, and takes the type that was written
down first; so what was written down before must be right, and no two leaves may have the same
number. -/

namespace MiniC

theorem ofWords_of_toOption {find? : String → Option Nat} {words : List String} {t : CType}
    (h : (CType.ofWords find? words).toOption = some t) : CType.ofWords find? words = .ok t := by
  cases hwords : CType.ofWords find? words with
  | ok s =>
    rw [hwords] at h
    cases h
    rfl
  | error e =>
    rw [hwords] at h
    cases h

/-- The kinds that names have as variables where an analysis is. -/
def Analysis.kindOf (a : Analysis) (leaf : Leaf) : Option NumberKind :=
  match a.lookup leaf.token.id with
  | some (.variable v) => v.type.numberKind?
  | _ => none

/-- Whether types that were written down before for names and literals among occurrences have the
kinds that these have now. -/
def Analysis.Faithful (a : Analysis) (l : List Occurrence) : Prop :=
  ∀ e slot t, .expr e ∈ l → (Occurrence.expr e).slot? = some slot →
    a.annotations[slot]? = some t → t.numberKind? = e.numberKind? a.kindOf

/-- Whether an analysis is at the same place as another one, and has written down no more than types
for leaves with the given numbers. -/
structure Analysis.Annotates (slots : List Nat) (a a' : Analysis) : Prop where
  scopes : a'.scopes = a.scopes
  current : a'.current = a.current
  others : ∀ slot, slot ∉ slots → a'.annotations[slot]? = a.annotations[slot]?

namespace Analysis

theorem Annotates.refl (slots : List Nat) (a : Analysis) : a.Annotates slots a :=
  ⟨rfl, rfl, fun _ _ => rfl⟩

theorem Annotates.append {slots slots' : List Nat} {a b c : Analysis}
    (h : a.Annotates slots b) (h' : b.Annotates slots' c) : a.Annotates (slots ++ slots') c where
  scopes := h'.scopes.trans h.scopes
  current := h'.current.trans h.current
  others slot hslot := by
    rw [List.mem_append, not_or] at hslot
    rw [h'.others slot hslot.2, h.others slot hslot.1]

theorem Annotates.kindOf_eq {slots : List Nat} {a b : Analysis} (h : a.Annotates slots b) :
    b.kindOf = a.kindOf := by
  funext leaf
  rw [kindOf, kindOf, lookup, lookup, outwards, outwards, h.scopes, h.current]

/-- What is written down for some leaves does not matter to others. -/
theorem Faithful.annotates {l : List Occurrence} {slots : List Nat} {a b : Analysis}
    (ha : a.Faithful l) (h : a.Annotates slots b) (hdisjoint : slots.Disjoint (slotsOf l)) :
    b.Faithful l := by
  intro e slot t he hslot ht
  have hmem : slot ∈ slotsOf l := List.mem_filterMap.mpr ⟨_, he, hslot⟩
  rw [h.others slot fun hslots => hdisjoint hslots hmem] at ht
  rw [h.kindOf_eq]
  exact ha e slot t he hslot ht

theorem Faithful.mono {l l' : List Occurrence} {a : Analysis} (ha : a.Faithful l) (h : l' ⊆ l) :
    a.Faithful l' :=
  fun e slot t he => ha e slot t (h he)

end Analysis

namespace Check

open Traced

variable {α β : Type} {D : Finding → Prop} {a : Analysis}

/-- A step that ends with an error in one case, and goes on in the other one. -/
theorem yields_reject {c : Prop} [Decidable c] {cause : SemanticCause} {pos : Position}
    {f : α → Check β} {x : Check β} {Q : β → Analysis → Prop} (hx : ¬c → Yields D x a Q) :
    Yields D (if c then failAt cause pos >>= f else x) a Q := by
  split
  · rintro _ _ ⟨⟩
  · rename_i hc
    exact hx hc

theorem yields_get_bind {f : Analysis → Check α} {Q : α → Analysis → Prop}
    (hf : Yields D (f a) a Q) : Yields D (get >>= f) a Q :=
  hf

theorem yields_modify_bind {g : Analysis → Analysis} {x : Check α} {Q : α → Analysis → Prop}
    (hx : Yields D x (g a) Q) : Yields D (do modify g; x) a Q :=
  (yields_modify (Q := fun _ a' => a' = g a) rfl).bind fun _ _ h => h ▸ hx

theorem yields_failAt {cause : SemanticCause} {pos : Position} {Q : α → Analysis → Prop} :
    Yields D (failAt cause pos : Check α) a Q :=
  yields_throw

/-- What an occurrence is annotated with is what was written down for it before, or the type that
was found. -/
theorem yields_annotate (slot : Nat) (t : CType) :
    Yields D (annotate slot t) a fun r a' =>
      (r = t ∨ a.annotations[slot]? = some r) ∧ a.Annotates [slot] a' := by
  refine yields_get_bind ?_
  cases hknown : a.annotations[slot]? with
  | some known => exact yields_pure ⟨.inr rfl, .refl _ _⟩
  | none =>
    refine yields_modify_bind ?_
    refine yields_pure ⟨.inl rfl, rfl, rfl, fun other hother => ?_⟩
    rw [Std.HashMap.getElem?_insert, if_neg]
    exact fun h => hother (List.mem_singleton.mpr (eq_of_beq h).symm)

section

variable {s t : CType} {j k : NumberKind}

theorem yields_unaryType {op : UnaryOp} {isPlace : Bool} {pos : Position}
    (ht : t.numberKind? = some j) (hk : op.numberKind? j = some k) :
    Yields D (unaryType op isPlace t pos) a fun r a' => r.numberKind? = some k ∧ a' = a := by
  cases op with
  | negate | plus =>
    cases hk
    simp only [unaryType]
    split
    · exact yields_failAt
    · exact yields_pure ⟨by rw [CType.numberKind?_writable, ht], rfl⟩
  | not =>
    cases hk
    simp only [unaryType]
    split
    · exact yields_failAt
    · exact yields_pure ⟨rfl, rfl⟩
  | complement =>
    cases hk
    simp only [unaryType]
    split
    · rename_i hinteger
      obtain rfl := (CType.isInteger_iff ht).mp hinteger
      exact yields_pure ⟨by rw [CType.numberKind?_writable, ht], rfl⟩
    · exact yields_failAt
  | deref | address => cases hk

theorem yields_widerType {cause : SemanticCause} {pos : Position}
    (hs : s.numberKind? = some j) (ht : t.numberKind? = some k) :
    Yields D (widerType cause pos s t) a fun r a' =>
      r.numberKind? = some (j.join k) ∧ a' = a := by
  unfold widerType
  split
  · rename_i hcast
    refine yields_pure ⟨?_, rfl⟩
    rw [CType.numberKind?_writable, ht, CType.join_eq_of_canCast hs ht hcast]
  · split
    · rename_i hcast
      refine yields_pure ⟨?_, rfl⟩
      rw [CType.numberKind?_writable, hs, NumberKind.join_comm,
        CType.join_eq_of_canCast ht hs hcast]
    · exact yields_failAt

theorem yields_arithType {op : ArithOp} {pos : Position} (hs : s.numberKind? = some j)
    (ht : t.numberKind? = some k) :
    Yields D (arithType op s t pos) a fun r a' =>
      r.numberKind? = some ((BinaryOp.arith op).numberKind j k) ∧ a' = a := by
  unfold arithType
  rw [BinaryOp.numberKind]
  split
  · -- the operators on bits take integers only
    split
    · exact yields_failAt
    · rename_i hintegers
      simp only [Bool.or_eq_true, Bool.not_eq_true', not_or, Bool.not_eq_false] at hintegers
      obtain rfl := (CType.isInteger_iff hs).mp hintegers.1
      obtain rfl := (CType.isInteger_iff ht).mp hintegers.2
      split
      · exact yields_pure ⟨by rw [CType.numberKind?_writable, hs], rfl⟩
      · exact yields_widerType hs ht
  · rw [(CType.plain_of_numberKind? hs).1, (CType.plain_of_numberKind? ht).1]
    simp only [Bool.or_self, Bool.false_eq_true, if_false]
    split
    · exact yields_failAt
    · exact yields_widerType hs ht

theorem yields_operatorType {op : BinaryOp} {pos : Position} (hs : s.numberKind? = some j)
    (ht : t.numberKind? = some k) :
    Yields D (operatorType op s t pos) a fun r a' =>
      r.numberKind? = some (op.numberKind j k) ∧ a' = a := by
  unfold operatorType
  split
  · exact yields_failAt
  · split
    · exact yields_failAt
    · cases op with
      | logic op => exact yields_pure ⟨rfl, rfl⟩
      | relation op =>
        dsimp only
        split
        · exact yields_pure ⟨rfl, rfl⟩
        · exact yields_failAt
      | arith op => exact yields_arithType hs ht

end

/-- An occurrence of a name or a literal gets a type of its kind. -/
theorem yields_annotate_leaf {e : Expr} {slot : Nat} {t : CType} {k : NumberKind}
    (hslot : (Occurrence.expr e).slot? = some slot) (ht : t.numberKind? = some k)
    (hk : e.numberKind? a.kindOf = some k) (hfaithful : a.Faithful [.expr e]) :
    Yields D (annotate slot t) a fun r a' =>
      r.numberKind? = some k ∧ a.Annotates (slotsOf [.expr e]) a' := by
  have hslots : slotsOf [.expr e] = [slot] := by
    rw [slotsOf, List.filterMap_cons_some hslot, List.filterMap_nil]
  rw [hslots]
  refine (yields_annotate slot t).imp ?_
  rintro r a' ⟨hr, ha'⟩
  refine ⟨?_, ha'⟩
  rcases hr with rfl | hknown
  · exact ht
  · rw [hfaithful e slot r List.mem_cons_self hslot hknown, hk]

/-- The numbers of the leaves of an expression that is no leaf are those in its parts. -/
theorem slotsOf_cons_of_none {o : Occurrence} {l : List Occurrence} (ho : o.slot? = none) :
    slotsOf (o :: l) = slotsOf l :=
  List.filterMap_cons_none ho

/-- The type that a type name stands for, where it is one of numbers. -/
theorem yields_resolve {name : TypeName} {target : CType} {k : NumberKind}
    (hname : CType.ofWords (fun _ => none) name.words = .ok target)
    (hk : target.numberKind? = some k) :
    Yields D (resolve name) a fun t a' => t = target ∧ a.Annotates [name.slot] a' := by
  have hwords := CType.ofWords_of_struct?_eq_none hname (CType.plain_of_numberKind? hk).2.1
  refine yields_get_bind ?_
  rw [StructTable.typeOf, hwords]
  exact (yields_annotate _ _).bind fun _ _ h => yields_pure ⟨rfl, h.2⟩

/-- The type of an arithmetic expression is of the kind that the conversions say. -/
theorem yields_exprType (e : Expr) (a : Analysis) {k : NumberKind}
    (hk : e.numberKind? a.kindOf = some k) (hslots : (slotsOf e.occurrences).Nodup)
    (hfaithful : a.Faithful e.occurrences) :
    Yields D (exprType e) a fun t a' =>
      t.numberKind? = some k ∧ a.Annotates (slotsOf e.occurrences) a' := by
  cases e with
  | identifier leaf =>
    rw [exprType, variableType]
    refine yields_get_bind ?_
    have hkind := hk
    rw [Expr.numberKind?, Analysis.kindOf] at hkind
    split at hkind
    · rename_i v hv
      rw [hv]
      refine (yields_note (Q := fun _ a' => a' = a) fun _ => rfl).bind ?_
      rintro _ _ rfl
      exact yields_annotate_leaf rfl hkind hk hfaithful
    · cases hkind
  | literal leaf kind =>
    rw [exprType]
    exact yields_annotate_leaf rfl hk hk hfaithful
  | parens e =>
    rw [Expr.occurrences, slotsOf_cons_of_none rfl] at hslots ⊢
    rw [exprType]
    exact yields_exprType e a hk hslots (hfaithful.mono (List.subset_cons_self _ _))
  | unary op e =>
    rw [Expr.occurrences, slotsOf_cons_of_none rfl] at hslots ⊢
    obtain ⟨j, hj, hop⟩ := Option.bind_eq_some_iff.mp hk
    rw [exprType]
    refine yields_reject fun _ => ?_
    refine (yields_exprType e a hj hslots (hfaithful.mono (List.subset_cons_self _ _))).bind ?_
    rintro t b ⟨ht, hb⟩
    refine (yields_unaryType ht hop).imp ?_
    rintro r _ ⟨hr, rfl⟩
    exact ⟨hr, hb⟩
  | binary op left right =>
    rw [Expr.occurrences, slotsOf_cons_of_none rfl, slotsOf_append] at hslots ⊢
    obtain ⟨hleft, hright, hdisjoint⟩ := List.nodup_append'.mp hslots
    obtain ⟨i, hi, hk⟩ := Option.bind_eq_some_iff.mp hk
    obtain ⟨j, hj, hk⟩ := Option.bind_eq_some_iff.mp hk
    cases hk
    have hparts := hfaithful.mono (List.subset_cons_self _ _)
    have hfleft := hparts.mono (List.subset_append_left _ _)
    have hfright := hparts.mono (List.subset_append_right _ _)
    rw [exprType]
    refine (yields_exprType left a hi hleft hfleft).bind ?_
    rintro s b ⟨hs, hb⟩
    -- The left operand recorded types in slots of its own, so what is known of the right one still
    -- holds.
    refine (yields_exprType right b (hb.kindOf_eq ▸ hj) hright
      (hfright.annotates hb hdisjoint)).bind ?_
    rintro t c ⟨ht, hc⟩
    refine (yields_operatorType hs ht).imp ?_
    rintro r _ ⟨hr, rfl⟩
    exact ⟨hr, hb.append hc⟩
  | conditional cond first second =>
    rw [Expr.occurrences, slotsOf_cons_of_none rfl, slotsOf_append, slotsOf_append] at hslots ⊢
    obtain ⟨hcond, hbranches, hdisjoint⟩ := List.nodup_append'.mp hslots
    obtain ⟨hfirst, hsecond, hdisjoint'⟩ := List.nodup_append'.mp hbranches
    rw [List.disjoint_append_right] at hdisjoint
    obtain ⟨h, hh, hk⟩ := Option.bind_eq_some_iff.mp hk
    obtain ⟨i, hi, hk⟩ := Option.bind_eq_some_iff.mp hk
    obtain ⟨j, hj, hk⟩ := Option.bind_eq_some_iff.mp hk
    cases hk
    have hparts := hfaithful.mono (List.subset_cons_self _ _)
    have hfcond := hparts.mono (List.subset_append_left _ _)
    have hfbranches := hparts.mono (List.subset_append_right _ _)
    have hffirst := hfbranches.mono (List.subset_append_left _ _)
    have hfsecond := hfbranches.mono (List.subset_append_right _ _)
    rw [exprType]
    refine (yields_exprType cond a hh hcond hfcond).bind ?_
    rintro u b ⟨-, hb⟩
    refine Yields.bind (P := fun _ b' => b' = b) ?_ ?_
    · unfold condition
      split
      · exact yields_failAt
      · exact yields_pure rfl
    rintro _ _ rfl
    have hfirst' := hffirst.annotates hb hdisjoint.1
    refine (yields_exprType first _ (hb.kindOf_eq ▸ hi) hfirst hfirst').bind ?_
    rintro s c ⟨hs, hc⟩
    have hc' := hb.append hc
    have hsecond' :=
      hfsecond.annotates hc' (List.disjoint_append_left.mpr ⟨hdisjoint.2, hdisjoint'⟩)
    refine (yields_exprType second c (hc'.kindOf_eq ▸ hj) hsecond hsecond').bind ?_
    rintro t d ⟨ht, hd⟩
    refine (yields_widerType hs ht).imp ?_
    rintro r _ ⟨hr, rfl⟩
    exact ⟨hr, hb.append (hc.append hd)⟩
  | cast type e =>
    have hcons : slotsOf (Expr.cast type e).occurrences = [type.slot] ++ slotsOf e.occurrences := by
      rw [Expr.occurrences, slotsOf_cons_of_none rfl]
      rfl
    rw [hcons] at hslots ⊢
    obtain ⟨-, hslots, hdisjoint⟩ := List.nodup_append'.mp hslots
    obtain ⟨j, hj, hk⟩ := Option.bind_eq_some_iff.mp hk
    obtain ⟨target, htarget, hk⟩ := Option.bind_eq_some_iff.mp hk
    have hfe : a.Faithful e.occurrences := hfaithful.mono (by
      rw [Expr.occurrences]
      exact List.subset_cons_of_subset _ (List.subset_cons_self _ _))
    rw [exprType]
    refine (yields_resolve (ofWords_of_toOption htarget) hk).bind ?_
    rintro _ b ⟨rfl, hb⟩
    refine yields_reject fun _ => ?_
    refine (yields_exprType e b (hb.kindOf_eq ▸ hj) hslots (hfe.annotates hb hdisjoint)).bind ?_
    rintro s c ⟨-, hc⟩
    refine yields_reject fun _ => yields_reject fun _ => yields_reject fun _ => ?_
    exact yields_pure ⟨hk, hb.append hc⟩
  | _ => cases hk

end Check

end MiniC
