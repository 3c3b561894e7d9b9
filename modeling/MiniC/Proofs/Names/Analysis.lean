import MiniC.Proofs.Names.Keyed
import MiniC.Proofs.Names.Linked
import MiniC.Proofs.Trace

set_option autoImplicit false

/-! # Scopes of the analysis, from the inside out

The analysis keeps all scopes that it ever opened. What names mean, and which jumps are allowed,
depends on the kinds and the names of the scopes around a place only: the layers there. Opening a
scope puts a layer in front, leaving it takes the layer away, and everything else changes the first
layer at most. -/

namespace MiniC

/-- The kind of a scope and the names declared in it. -/
structure Layer where
  kind : ScopeKind
  names : List (Nat × Entity)

namespace StaticScope

/-- The layer of a scope. -/
def layer (s : StaticScope) : Layer := ⟨s.kind, s.names⟩

theorem kind_put (s : StaticScope) (id : Nat) (e : Entity) : (s.put id e).kind = s.kind := by
  unfold put
  split <;> rfl

theorem parent_put (s : StaticScope) (id : Nat) (e : Entity) :
    (s.put id e).parent = s.parent := by
  unfold put
  split <;> rfl

/-- A name that was given a meaning has it, and all others keep theirs. -/
theorem lookup_put (s : StaticScope) (id : Nat) (e : Entity) (n : Nat) :
    (s.put id e).names.lookup n = if n = id then some e else s.names.lookup n := by
  unfold put
  split
  · rename_i hnone
    rw [List.lookup_append]
    by_cases hn : n = id
    · subst hn
      simp [hnone]
    · rw [lookup_cons_ite, if_neg hn, if_neg hn, List.lookup_nil, Option.or_none]
  · rename_i old hold
    rw [lookup_replace]
    by_cases hn : n = id
    · subst hn
      simp [hold]
    · rw [if_neg hn, if_neg hn]

end StaticScope

/-! ## What the layers decide -/

namespace Layer

/-- The meanings that names have among layers. -/
def meanings (ls : List Layer) : Meanings := fun id =>
  (ls.findSome? fun l => l.names.lookup id).map Entity.meaning

/-- Whether a jump that needs a layer of one of the given kinds may stand among layers. -/
def allows (ls : List Layer) (kinds : List ScopeKind) : Bool :=
  match ls.find? fun l => kinds.contains l.kind || l.kind = .function with
  | none => false
  | some l => kinds.contains l.kind

/-- The jumps that may stand among layers. -/
def jumps (ls : List Layer) : Jumps := ⟨allows ls [.loop, .switch], allows ls [.loop]⟩

@[simp]
theorem meanings_opened (kind : ScopeKind) (ls : List Layer) :
    meanings (⟨kind, []⟩ :: ls) = meanings ls := rfl

/-- The jumps depend on the kinds of the layers only. -/
theorem allows_kind (l : Layer) (ls : List Layer) (kinds : List ScopeKind) :
    allows (l :: ls) kinds = allows (⟨l.kind, []⟩ :: ls) kinds := by
  simp only [allows, List.find?_cons]
  cases kinds.contains l.kind || l.kind = .function <;> rfl

/-- In a block the same jumps may stand as in the layer around it. -/
theorem jumps_block (l : Layer) (ls : List Layer) :
    jumps (⟨.block, []⟩ :: l :: ls) = jumps (⟨l.kind, []⟩ :: ls) := by
  change Jumps.mk (allows (l :: ls) _) (allows (l :: ls) _) = _
  rw [allows_kind l ls [.loop, .switch], allows_kind l ls [.loop]]
  rfl

theorem jumps_loop (ls : List Layer) : jumps (⟨.loop, []⟩ :: ls) = .loop := rfl

/-- In a switch the same jumps may stand as in the layer around it, and those that leave it. -/
theorem jumps_switch (l : Layer) (ls : List Layer) :
    jumps (⟨.switch, []⟩ :: l :: ls) = (jumps (⟨l.kind, []⟩ :: ls)).inSwitch := by
  rw [← jumps_block l ls]
  rfl

theorem jumps_function (ls : List Layer) : jumps (⟨.function, []⟩ :: ls) = .none := rfl

end Layer

/-! ## The layers of a state of the analysis -/

namespace Analysis

variable {scopes : Array StaticScope}

theorem outwardsFrom_push (s : StaticScope) (i : Nat) (hi : i < scopes.size) :
    outwardsFrom (scopes.push s) i = outwardsFrom scopes i := by
  induction i using Nat.strongRecOn with
  | ind i ih =>
    rw [outwardsFrom, outwardsFrom, Array.getElem?_push_lt hi, Array.getElem?_eq_getElem hi]
    dsimp only
    cases scopes[i].parent with
    | none => rfl
    | some p =>
      dsimp only
      split
      · rename_i hp
        rw [ih p hp (Nat.lt_trans hp hi)]
      · rfl

theorem outwardsFrom_modify_below (f : StaticScope → StaticScope) {k i : Nat} (hi : i < k) :
    outwardsFrom (scopes.modify k f) i = outwardsFrom scopes i := by
  induction i using Nat.strongRecOn with
  | ind i ih =>
    rw [outwardsFrom, outwardsFrom, Array.getElem?_modify, if_neg (Nat.ne_of_gt hi)]
    cases scopes[i]? with
    | none => rfl
    | some s =>
      dsimp only
      cases s.parent with
      | none => rfl
      | some p =>
        dsimp only
        split
        · rename_i hp
          rw [ih p hp (Nat.lt_trans hp hi)]
        · rfl

/-- A change of a scope that leaves its layer and its parent alone leaves all layers alone. -/
theorem layers_modify_same {f : StaticScope → StaticScope}
    (hf : ∀ s, (f s).layer = s.layer ∧ (f s).parent = s.parent) (k i : Nat) :
    (outwardsFrom (scopes.modify k f) i).map (·.layer) = (outwardsFrom scopes i).map (·.layer) := by
  induction i using Nat.strongRecOn with
  | ind i ih =>
    have hscope : (scopes.modify k f)[i]? = scopes[i]?.map (if k = i then f else id) := by
      rw [Array.getElem?_modify]
      split <;> simp
    rw [outwardsFrom, outwardsFrom, hscope]
    cases scopes[i]? with
    | none => rfl
    | some s =>
      have hsame : ((if k = i then f else id) s).layer = s.layer ∧
          ((if k = i then f else id) s).parent = s.parent := by
        split
        · exact hf s
        · exact ⟨rfl, rfl⟩
      simp only [Option.map_some, List.map_cons, hsame.1, hsame.2]
      cases s.parent with
      | none => rfl
      | some p =>
        dsimp only
        split
        · rename_i hp
          rw [ih p hp]
        · rfl

/-- Whether the scopes of a state lie in earlier scopes, and the layers from its current scope
outwards are the given ones. -/
structure At (a : Analysis) (ls : List Layer) : Prop where
  parents : ∀ (i : Nat) s, a.scopes[i]? = some s → ∀ p, s.parent = some p → p < i
  current : ∀ i, a.current = some i → i < a.scopes.size
  layers : a.outwards.map (·.layer) = ls

variable {a : Analysis} {l : Layer} {ls : List Layer}

theorem At.lookup (ha : a.At ls) (id : Nat) :
    a.lookup id = ls.findSome? fun l => l.names.lookup id := by
  rw [← ha.layers, Analysis.lookup, List.findSome?_map]
  rfl

theorem At.allowsJump (ha : a.At ls) (kinds : List ScopeKind) :
    a.allowsJump kinds = Layer.allows ls kinds := by
  rw [← ha.layers, Layer.allows, List.find?_map]
  unfold Analysis.allowsJump
  simp only [Function.comp_def, StaticScope.layer]
  cases a.outwards.find? _ <;> rfl

/-- The scopes around a scope, from the inside out. -/
def around (scopes : Array StaticScope) (s : StaticScope) : List StaticScope :=
  match s.parent with
  | none => []
  | some p => outwardsFrom scopes p

/-- The current scope where there is a layer. -/
theorem At.scope (ha : a.At (l :: ls)) :
    ∃ (i : Nat) (s : StaticScope), a.current = some i ∧ a.scopes[i]? = some s ∧ s.layer = l ∧
      (around a.scopes s).map (·.layer) = ls := by
  have hlayers := ha.layers
  unfold outwards at hlayers
  cases hcurrent : a.current with
  | none =>
    rw [hcurrent] at hlayers
    cases hlayers
  | some i =>
    rw [hcurrent] at hlayers
    dsimp only at hlayers
    rw [outwardsFrom] at hlayers
    cases hs : a.scopes[i]? with
    | none =>
      simp only [hs] at hlayers
      cases hlayers
    | some s =>
      simp only [hs, List.map_cons, List.cons.injEq] at hlayers
      refine ⟨i, s, rfl, hs, hlayers.1, ?_⟩
      rw [← hlayers.2, around]
      cases hparent : s.parent with
      | none => rfl
      | some p => simp only [if_pos (ha.parents i s hs p hparent)]

theorem At.lookupHere (ha : a.At (l :: ls)) (id : Nat) : a.lookupHere id = l.names.lookup id := by
  obtain ⟨i, s, hcurrent, hs, hl, -⟩ := ha.scope
  rw [Analysis.lookupHere, hcurrent, Option.bind_some, hs, Option.bind_some, ← hl]
  rfl

/-! ## Changes of the state -/

theorem at_start : start.At [] where
  parents i s hs := by cases (show (#[] : Array StaticScope)[i]? = some s from hs)
  current i hi := by cases hi
  layers := rfl

/-- Only the scopes and the current one matter. -/
theorem At.congr {a' : Analysis} (ha : a.At ls) (hscopes : a'.scopes = a.scopes)
    (hcurrent : a'.current = a.current) : a'.At ls where
  parents := by rw [hscopes]; exact ha.parents
  current := by rw [hscopes, hcurrent]; exact ha.current
  layers := by rw [outwards, hscopes, hcurrent]; exact ha.layers

theorem At.enter (ha : a.At ls) (kind : ScopeKind) (f : Option Signature) :
    ({ a with
      scopes := a.scopes.push (.opened a.current kind f)
      current := some a.scopes.size } : Analysis).At (⟨kind, []⟩ :: ls) where
  parents i s hs p hp := by
    rw [Array.getElem?_push] at hs
    split at hs
    · rename_i hi
      cases hs
      rw [hi]
      exact ha.current p hp
    · exact ha.parents i s hs p hp
  current i hi := by
    cases hi
    rw [Array.size_push]
    exact Nat.lt_succ_self _
  layers := by
    have hlayers := ha.layers
    unfold outwards at hlayers ⊢
    dsimp only
    rw [outwardsFrom, Array.getElem?_push_size]
    simp only [StaticScope.opened, List.map_cons]
    congr 1
    cases hcurrent : a.current with
    | none =>
      rw [hcurrent] at hlayers
      exact hlayers
    | some i =>
      rw [hcurrent] at hlayers
      have hi := ha.current i hcurrent
      dsimp only
      rw [if_pos hi, outwardsFrom_push _ i hi]
      exact hlayers

theorem At.leave (ha : a.At (l :: ls)) :
    ({ a with
      current := (a.current.bind fun i => a.scopes[i]?).bind (·.parent) } : Analysis).At ls := by
  obtain ⟨i, s, hcurrent, hs, -, hls⟩ := ha.scope
  rw [hcurrent, Option.bind_some, hs, Option.bind_some]
  refine ⟨ha.parents, fun p hp => ?_, ?_⟩
  · have hi := (Array.getElem?_eq_some_iff.mp hs).1
    exact Nat.lt_trans (ha.parents i s hs p hp) hi
  · subst hls
    unfold outwards around
    cases s.parent <;> rfl

theorem At.modify_same (ha : a.At ls) {f : StaticScope → StaticScope}
    (hf : ∀ s, (f s).layer = s.layer ∧ (f s).parent = s.parent) (k : Nat) :
    ({ a with scopes := a.scopes.modify k f } : Analysis).At ls where
  parents i s hs p hp := by
    rw [Array.getElem?_modify] at hs
    split at hs
    · rw [Option.map_eq_some_iff] at hs
      obtain ⟨s', hs', rfl⟩ := hs
      rw [(hf s').2] at hp
      exact ha.parents i s' hs' p hp
    · exact ha.parents i s hs p hp
  current i hi := by
    rw [Array.size_modify]
    exact ha.current i hi
  layers := by
    have hlayers := ha.layers
    unfold outwards at hlayers ⊢
    dsimp only
    cases hcurrent : a.current with
    | none =>
      rw [hcurrent] at hlayers
      exact hlayers
    | some i =>
      rw [hcurrent] at hlayers
      dsimp only
      rw [layers_modify_same hf]
      exact hlayers

/-- The layers after a name was given a meaning in the current scope. -/
theorem At.put (ha : a.At (l :: ls)) (id : Nat) (e : Entity) :
    ∃ i, a.current = some i ∧ ∃ names,
      ({ a with scopes := a.scopes.modify i (·.put id e) } : Analysis).At (⟨l.kind, names⟩ :: ls) ∧
      ∀ n, names.lookup n = if n = id then some e else l.names.lookup n := by
  obtain ⟨i, s, hcurrent, hs, hl, hls⟩ := ha.scope
  refine ⟨i, hcurrent, (s.put id e).names, ⟨?_, ?_, ?_⟩, ?_⟩
  · intro k s' hs' p hp
    rw [Array.getElem?_modify] at hs'
    split at hs'
    · rw [Option.map_eq_some_iff] at hs'
      obtain ⟨s'', hs'', rfl⟩ := hs'
      rw [StaticScope.parent_put] at hp
      exact ha.parents k s'' hs'' p hp
    · exact ha.parents k s' hs' p hp
  · intro k hk
    rw [Array.size_modify]
    exact ha.current k hk
  · unfold outwards
    rw [hcurrent]
    dsimp only
    rw [outwardsFrom, Array.getElem?_modify, if_pos rfl, hs, Option.map_some]
    simp only [List.map_cons, StaticScope.parent_put]
    rw [← hls, ← hl, StaticScope.layer, StaticScope.kind_put, around]
    congr 1
    cases hparent : s.parent with
    | none => rfl
    | some p =>
      have hp := ha.parents i s hs p hparent
      simp only [if_pos hp, outwardsFrom_modify_below _ hp]
  · intro n
    rw [StaticScope.lookup_put, ← hl]
    rfl

end Analysis

end MiniC
