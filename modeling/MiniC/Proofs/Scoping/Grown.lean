import Mathlib.Data.List.Nodup
import MiniC.Proofs.Scoping.Tree

set_option autoImplicit false

/-! # What a step of the analysis may change

From the moment in which the analysis of something begins, the scopes that were there stay where
they are. Names are added in the current scope only, and labels and jumps in the innermost function
scope only. What is there already is not taken away and keeps its meaning; at most, a function that
had no body may get one. -/

namespace MiniC

/-- Whether something that a name stands for may become something else: it is the same, or the
function got a body. -/
inductive Entity.Becomes : Entity → Entity → Prop
  | same (e : Entity) : Becomes e e
  | body {f f' : Signature} (hold : f.hasBody = false) (hnew : f'.hasBody = true)
    (hname : f'.name = f.name) (htype : f'.returnType = f.returnType) :
    Becomes (.function f) (.function f')

theorem Entity.Becomes.trans {d e e' : Entity} (h : d.Becomes e) (h' : e.Becomes e') :
    d.Becomes e' := by
  cases h with
  | same => exact h'
  | body hold hnew hname htype =>
    cases h' with
    | same => exact .body hold hnew hname htype
    | body hold' => simp [hnew] at hold'

variable {R : Entity → Entity → Prop}

namespace StaticScope

/-- Whether a scope may become another one, where what a name stands for may change by `R`. Names
are only added if `named`, and labels and jumps only if `marked`. -/
structure Grows (R : Entity → Entity → Prop) (named marked : Prop) (s s' : StaticScope) :
    Prop where
  parent : s'.parent = s.parent
  kind : s'.kind = s.kind
  function : s'.function = s.function
  /-- The names that are there stay in their places. -/
  ids : s.names.map Prod.fst <+: s'.names.map Prod.fst
  /-- They keep their meanings up to `R`. -/
  kept : ∀ id e, s.names.lookup id = some e → ∃ e', s'.names.lookup id = some e' ∧ R e e'
  named : ¬named → s'.names = s.names
  labels : s.labels <+: s'.labels
  gotos : s.gotos <+: s'.gotos
  marked : ¬marked → s'.labels = s.labels ∧ s'.gotos = s.gotos

variable {named marked named' marked' : Prop} {s s' s'' : StaticScope}

theorem Grows.refl (hR : ∀ e, R e e) (s : StaticScope) : s.Grows R named marked s :=
  ⟨rfl, rfl, rfl, List.prefix_rfl, fun _ e he => ⟨e, he, hR e⟩, fun _ => rfl, List.prefix_rfl,
    List.prefix_rfl, fun _ => ⟨rfl, rfl⟩⟩

theorem Grows.trans (hR : ∀ ⦃d e e'⦄, R d e → R e e' → R d e') (h : s.Grows R named marked s')
    (h' : s'.Grows R named marked s'') : s.Grows R named marked s'' where
  parent := h'.parent.trans h.parent
  kind := h'.kind.trans h.kind
  function := h'.function.trans h.function
  ids := h.ids.trans h'.ids
  kept id e he := by
    obtain ⟨e', he', hee⟩ := h.kept id e he
    obtain ⟨e'', he'', hee'⟩ := h'.kept id e' he'
    exact ⟨e'', he'', hR hee hee'⟩
  named hn := (h'.named hn).trans (h.named hn)
  labels := h.labels.trans h'.labels
  gotos := h.gotos.trans h'.gotos
  marked hm := ⟨(h'.marked hm).1.trans (h.marked hm).1, (h'.marked hm).2.trans (h.marked hm).2⟩

theorem Grows.imp (h : s.Grows R named marked s') (hnamed : named → named')
    (hmarked : marked → marked') : s.Grows R named' marked' s' :=
  { h with
    named := fun hn => h.named fun hn' => hn (hnamed hn')
    marked := fun hm => h.marked fun hm' => hm (hmarked hm') }

/-! ## Names, labels and jumps -/

/-- A name that is given a meaning stands in its old place, or behind all others. -/
theorem ids_put (s : StaticScope) (id : Nat) (e : Entity) :
    (s.put id e).names.map Prod.fst =
      s.names.map Prod.fst ++ if (s.names.lookup id).isSome then [] else [id] := by
  unfold put
  split
  next hnone => simp [hnone]
  next old hold =>
    rw [hold, Option.isSome_some, if_pos rfl, List.append_nil, List.map_map]
    refine List.map_congr_left fun pair _ => ?_
    dsimp only [Function.comp]
    split <;> rfl

theorem not_mem_ids {id : Nat} (h : s.names.lookup id = none) : id ∉ s.names.map Prod.fst := by
  simp only [List.lookup_eq_none_iff] at h
  simp only [List.mem_map, not_exists, not_and]
  intro pair hpair heq
  simpa [heq] using h pair hpair

theorem Sound.put (h : s.Sound) (id : Nat) (e : Entity) : (s.put id e).Sound := by
  constructor
  · rw [ids_put]
    cases hlookup : s.names.lookup id with
    | some old => simpa using h.ids
    | none =>
      simp only [Option.isSome_none, Bool.false_eq_true, if_false]
      rw [← List.concat_eq_append]
      exact List.Nodup.concat (not_mem_ids hlookup) h.ids
  · unfold StaticScope.put
    split <;> exact h.marks

theorem Grows.put (hR : ∀ e, R e e) {id : Nat} {e : Entity}
    (hold : ∀ old, s.names.lookup id = some old → R old e) :
    s.Grows R True marked (s.put id e) := by
  have hrest : (s.put id e).parent = s.parent ∧ (s.put id e).kind = s.kind ∧
      (s.put id e).function = s.function ∧ (s.put id e).labels = s.labels ∧
      (s.put id e).gotos = s.gotos := by
    unfold StaticScope.put
    split <;> exact ⟨rfl, rfl, rfl, rfl, rfl⟩
  obtain ⟨hparent, hkind, hfunction, hlabels, hgotos⟩ := hrest
  refine ⟨hparent, hkind, hfunction, ?_, fun n d hd => ?_, fun h => absurd trivial h,
    hlabels ▸ List.prefix_rfl, hgotos ▸ List.prefix_rfl, fun _ => ⟨hlabels, hgotos⟩⟩
  · rw [ids_put]
    exact List.prefix_append _ _
  · rw [lookup_put]
    split
    next hn => exact ⟨e, rfl, hold d (hn ▸ hd)⟩
    next => exact ⟨d, hd, hR d⟩

/-- More labels and jumps, in the scope of a function. -/
theorem Grows.mark (hR : ∀ e, R e e) {labels : List String} {gotos : List Token}
    (hlabels : s.labels <+: labels) (hgotos : s.gotos <+: gotos) :
    s.Grows R named True { s with labels, gotos } :=
  ⟨rfl, rfl, rfl, List.prefix_rfl, fun _ e he => ⟨e, he, hR e⟩, fun _ => rfl, hlabels, hgotos,
    fun h => absurd trivial h⟩

end StaticScope

namespace Analysis

variable {a b t : Analysis}

/-- Whether a state is one of an analysis that began in another one, as far as the scopes are
concerned that were there. -/
def Grown (R : Entity → Entity → Prop) (a t : Analysis) : Prop :=
  ∀ (i : Nat) s, a.scopes[i]? = some s → ∃ s', t.scopes[i]? = some s' ∧
    s.Grows R (a.current = some i) (a.functionScope? = some i) s'

theorem Grown.of_scopes (hR : ∀ e, R e e) (h : t.scopes = a.scopes) : a.Grown R t :=
  fun _ s hs => ⟨s, h ▸ hs, .refl hR s⟩

theorem Grown.congr {t' : Analysis} (h : a.Grown R t) (hscopes : t'.scopes = t.scopes) :
    a.Grown R t' := by
  rw [Grown, hscopes]
  exact h

/-- Where the scopes stay what they are, a function scope stays the innermost one. -/
theorem Grown.functionScope?_eq (h : a.Grown R b) (ha : a.IsTree) (hcurrent : b.current = a.current) :
    b.functionScope? = a.functionScope? := by
  rw [functionScope?, functionScope?, hcurrent]
  cases hi : a.current with
  | none => rfl
  | some i =>
    refine functionScopeFrom_congr i fun j hj => ?_
    have hlt : j < a.scopes.size := Nat.lt_of_le_of_lt hj (ha.current_lt i hi)
    obtain ⟨s', hs', hgrows⟩ := h j _ (Array.getElem?_eq_getElem hlt)
    rw [hs', Array.getElem?_eq_getElem hlt, Option.map_some, Option.map_some, StaticScope.place,
      StaticScope.place, hgrows.parent, hgrows.kind]

theorem Grown.trans (hR : ∀ ⦃d e e'⦄, R d e → R e e' → R d e') (h : a.Grown R b) (ha : a.IsTree)
    (hcurrent : b.current = a.current) (h' : b.Grown R t) : a.Grown R t := by
  intro i s hs
  obtain ⟨s', hs', hgrows⟩ := h i s hs
  obtain ⟨s'', hs'', hgrows'⟩ := h' i s' hs'
  rw [hcurrent, h.functionScope?_eq ha hcurrent] at hgrows'
  exact ⟨s'', hs'', hgrows.trans hR hgrows'⟩

/-- A change of one scope. -/
theorem Grown.modify (hR : ∀ e, R e e) (k : Nat) {f : StaticScope → StaticScope}
    (hf : ∀ s, a.scopes[k]? = some s →
      s.Grows R (a.current = some k) (a.functionScope? = some k) (f s)) :
    a.Grown R { a with scopes := a.scopes.modify k f } := by
  intro i s hs
  dsimp only
  rw [Array.getElem?_modify, hs]
  split
  next heq => exact ⟨f s, rfl, heq ▸ hf s (heq ▸ hs)⟩
  next => exact ⟨s, rfl, .refl hR s⟩

/-- The innermost function scope in a scope that was opened. -/
theorem functionScope?_entered (ha : a.IsTree) {kind : ScopeKind} {f : Option Signature} {i : Nat}
    (hi : i < a.scopes.size) (h : (a.entered kind f).functionScope? = some i) :
    a.functionScope? = some i := by
  rw [functionScope?, entered, Option.bind_some, functionScopeFrom, Array.getElem?_push_size] at h
  dsimp only [StaticScope.opened] at h
  split at h
  · cases h
    exact absurd hi (Nat.lt_irrefl _)
  · rw [functionScope?]
    cases hcurrent : a.current with
    | none => simp [hcurrent] at h
    | some p =>
      have hp := ha.current_lt p hcurrent
      simp only [hcurrent, if_pos hp] at h
      rw [Option.bind_some, ← h]
      refine (functionScopeFrom_congr p fun j hj => ?_).symm
      have hlt : j < a.scopes.size := Nat.lt_of_le_of_lt hj hp
      rw [Array.getElem?_push_lt hlt, Array.getElem?_eq_getElem hlt]

/-- What happens in a scope that was opened changes the scopes around as if it were not there. -/
theorem Grown.of_entered (ha : a.IsTree) {kind : ScopeKind} {f : Option Signature}
    (h : (a.entered kind f).Grown R t) : a.Grown R t := by
  intro i s hs
  have hi := (Array.getElem?_eq_some_iff.mp hs).1
  obtain ⟨s', hs', hgrows⟩ := h i s (getElem?_entered hs)
  refine ⟨s', hs', hgrows.imp (fun hcurrent => ?_) (functionScope?_entered ha hi)⟩
  -- the scope that was opened is not one of those around
  cases hcurrent
  exact absurd hi (Nat.lt_irrefl _)

/-- When the scope that was opened is left, the scope in which it was opened is current again. -/
theorem Grown.current_left {kind : ScopeKind} {f : Option Signature}
    (h : (a.entered kind f).Grown R t) (hcurrent : t.current = some a.scopes.size) :
    t.left.current = a.current := by
  have hopened : (a.entered kind f).scopes[a.scopes.size]? = some (.opened a.current kind f) :=
    Array.getElem?_push_size
  obtain ⟨s, hs, hgrows⟩ := h _ _ hopened
  rw [left, hcurrent, Option.bind_some, hs, Option.bind_some, hgrows.parent]
  rfl

end Analysis

end MiniC
