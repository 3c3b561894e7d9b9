import MiniC.Proofs.Names.Keyed
import MiniC.Proofs.Scopes

set_option autoImplicit false

/-! # What names mean in a state

A name means the variable found first on the way from the current scope outwards. This depends on
the variables of the scopes and on which scope lies in which, and on nothing else; here is what the
changes of a state that concern scopes do to it. -/

namespace MiniC

namespace Machine

/-! ## Scopes that lie in each other -/

/-- Whether there is a current scope, every scope lies in one below it, and the global scope in
none. -/
structure Nested (m : Machine) : Prop where
  current : m.current < m.frames.size
  parents : ∀ (k : Nat) frame p, m.frames[k]? = some frame → frame.parent = some p → p < k
  global : ∀ frame, m.frames[globalScope]? = some frame → frame.parent = none

/-- What lookups see of a scope. -/
def face (frames : Array Frame) (k : Nat) : Option (Option Nat × List (Nat × Binding)) :=
  frames[k]?.map fun frame => (frame.parent, frame.bindings)

/-- The variable that a name means in the global scope. -/
def lookupGlobal (m : Machine) (id : Nat) : Option Binding :=
  m.frames[globalScope]?.bind (·.lookup id)

/-- Whether lookups see the same scopes in two states. -/
structure Alike (m m' : Machine) : Prop where
  current : m'.current = m.current
  size : m'.frames.size = m.frames.size
  faces : ∀ k, face m'.frames k = face m.frames k

theorem lookupFrom_congr {frames frames' : Array Frame} (h : ∀ k, face frames' k = face frames k)
    (id steps k : Nat) : lookupFrom frames' id steps k = lookupFrom frames id steps k := by
  induction steps generalizing k with
  | zero => rfl
  | succ steps ih =>
    have hk := h k
    unfold face at hk
    rw [lookupFrom, lookupFrom]
    cases hframe : frames[k]? with
    | none =>
      rw [hframe, Option.map_none, Option.map_eq_none_iff] at hk
      rw [hk]
    | some frame =>
      rw [hframe, Option.map_some, Option.map_eq_some_iff] at hk
      obtain ⟨frame', hframe', heq⟩ := hk
      obtain ⟨hparent, hbindings⟩ := Prod.mk.injEq .. ▸ heq
      rw [hframe']
      simp only [Frame.lookup, hparent, hbindings, ih]

theorem Alike.lookup {m m' : Machine} (h : m.Alike m') (id : Nat) : m'.lookup id = m.lookup id := by
  rw [Machine.lookup, Machine.lookup, h.current, h.size, lookupFrom_congr h.faces]

theorem lookupGlobal_congr {m m' : Machine}
    (h : face m'.frames globalScope = face m.frames globalScope) (id : Nat) :
    m'.lookupGlobal id = m.lookupGlobal id := by
  have hface : ∀ frames : Array Frame, frames[globalScope]?.bind (·.lookup id) =
      (face frames globalScope).bind fun face => face.2.lookup id := by
    intro frames
    unfold face
    cases frames[globalScope]? <;> rfl
  rw [lookupGlobal, lookupGlobal, hface, hface, h]

theorem Alike.nested {m m' : Machine} (h : m.Alike m') (hm : m.Nested) : m'.Nested := by
  have hframe : ∀ (k : Nat) frame', m'.frames[k]? = some frame' →
      ∃ frame, m.frames[k]? = some frame ∧ frame.parent = frame'.parent := by
    intro k frame' hframe'
    have hface := h.faces k
    unfold face at hface
    rw [hframe', Option.map_some, eq_comm, Option.map_eq_some_iff] at hface
    obtain ⟨frame, hframe, heq⟩ := hface
    exact ⟨frame, hframe, congrArg Prod.fst heq⟩
  refine ⟨?_, ?_, ?_⟩
  · rw [h.current, h.size]
    exact hm.current
  · intro k frame' p hframe' hp
    obtain ⟨frame, hframe, hparent⟩ := hframe k frame' hframe'
    exact hm.parents k frame p hframe (hparent.trans hp)
  · intro frame' hframe'
    obtain ⟨frame, hframe, hparent⟩ := hframe globalScope frame' hframe'
    rw [← hparent]
    exact hm.global frame hframe

theorem alike_of_frames {m m' : Machine} (hframes : m'.frames = m.frames)
    (hcurrent : m'.current = m.current) : m.Alike m' :=
  ⟨hcurrent, by rw [hframes], fun _ => by rw [hframes]⟩

theorem alike_own (m : Machine) (values : Array Value) : m.Alike (m.own values).2 where
  current := rfl
  size := by rw [frames_own, Array.size_modify]
  faces k := by
    rw [face, face, frames_own, Array.getElem?_modify]
    split
    · cases m.frames[k]? <;> rfl
    · rfl

/-! ## Opening a scope -/

/-- The scopes below a new one are seen as before. -/
theorem lookupFrom_push {m : Machine} (hm : m.Nested) (frame : Frame) (id steps : Nat) {k : Nat}
    (hk : k < m.frames.size) :
    lookupFrom (m.frames.push frame) id steps k = lookupFrom m.frames id steps k := by
  induction steps generalizing k with
  | zero => rfl
  | succ steps ih =>
    rw [lookupFrom, lookupFrom, Array.getElem?_push_lt hk, Array.getElem?_eq_getElem hk]
    dsimp only
    cases hparent : m.frames[k].parent with
    | none => rfl
    | some p =>
      have hp := hm.parents k _ p (Array.getElem?_eq_getElem hk) hparent
      simp only [ih (Nat.lt_trans hp hk)]

/-- In a scope that was just opened inside the current one, names mean what they meant. -/
theorem lookup_push {m : Machine} (hm : m.Nested) (id : Nat) :
    (m.push m.current).lookup id = m.lookup id := by
  rw [Machine.lookup, push, Array.size_push, lookupFrom, Array.getElem?_push_size]
  simp only [Frame.opened, Frame.lookup, List.lookup_nil]
  rw [lookupFrom_push hm _ id _ hm.current]
  rfl

/-- In the scope of a function that was just called, names mean what they mean in the global
scope. -/
theorem lookup_enterCall {m : Machine} (hm : m.Nested) (name : String) (id : Nat) :
    (m.enterCall name).lookup id = m.lookupGlobal id := by
  obtain ⟨n, hn⟩ : ∃ n, m.frames.size = n + 1 :=
    Nat.exists_eq_add_one.mpr (Nat.zero_lt_of_lt hm.current)
  have hzero : globalScope < m.frames.size := by
    rw [hn]
    exact Nat.succ_pos n
  rw [Machine.lookup, enterCall, push, Array.size_push, lookupFrom, Array.getElem?_push_size]
  simp only [Frame.opened, Frame.lookup, List.lookup_nil]
  rw [lookupFrom_push hm _ id _ hzero, hn, lookupFrom, lookupGlobal]
  cases hframe : m.frames[globalScope]? with
  | none => rfl
  | some frame =>
    dsimp only [Option.bind_some]
    rw [hm.global frame hframe]
    cases frame.lookup id <;> rfl

theorem nested_push {m : Machine} (hm : m.Nested) {parent : Nat} (hp : parent < m.frames.size) :
    (m.push parent).Nested where
  current := by
    rw [push, Array.size_push]
    exact Nat.lt_succ_self _
  parents k frame p hframe hparent := by
    rw [push, Array.getElem?_push] at hframe
    split at hframe
    · rename_i hk
      cases hframe
      cases hparent
      rw [hk]
      exact hp
    · exact hm.parents k frame p hframe hparent
  global frame hframe := by
    have hne : globalScope ≠ m.frames.size := Nat.ne_of_lt (Nat.zero_lt_of_lt hm.current)
    rw [push, Array.getElem?_push, if_neg hne] at hframe
    exact hm.global frame hframe

theorem lookupGlobal_push {m : Machine} (hm : m.Nested) (parent id : Nat) :
    (m.push parent).lookupGlobal id = m.lookupGlobal id := by
  have hzero : globalScope < m.frames.size := Nat.zero_lt_of_lt hm.current
  rw [lookupGlobal, push, Array.getElem?_push_lt hzero, lookupGlobal,
    Array.getElem?_eq_getElem hzero]

/-! ## Making a variable -/

/-- What is seen in a scope after a variable was made in it. -/
theorem lookup_bind_frame (frame : Frame) (id : Nat) (b : Binding) (n : Nat) :
    (frame.bind id b).lookup n = if n = id then some b else frame.lookup n := by
  rw [Frame.lookup, Frame.bind, lookup_cons_ite]
  by_cases hn : n = id
  · rw [if_pos hn, if_pos hn]
  · rw [if_neg hn, if_neg hn]
    exact lookup_filter_ne hn frame.bindings

/-- The scopes below one that was changed are seen as before. -/
theorem lookupFrom_modify {m : Machine} (hm : m.Nested) (f : Frame → Frame) (id steps c : Nat)
    {k : Nat} (hk : k < c) :
    lookupFrom (m.frames.modify c f) id steps k = lookupFrom m.frames id steps k := by
  induction steps generalizing k with
  | zero => rfl
  | succ steps ih =>
    rw [lookupFrom, lookupFrom, Array.getElem?_modify, if_neg (Nat.ne_of_gt hk)]
    cases hframe : m.frames[k]? with
    | none => rfl
    | some frame =>
      dsimp only
      cases hparent : frame.parent with
      | none => rfl
      | some p => simp only [ih (Nat.lt_trans (hm.parents k frame p hframe hparent) hk)]

theorem nested_bind {m : Machine} (hm : m.Nested) (id : Nat) (t : CType) (v : Value) :
    (m.bind id t v).Nested := by
  have hown := (alike_own m #[v]).nested hm
  have hframe : ∀ (k : Nat) frame, (m.bind id t v).frames[k]? = some frame →
      ∃ frame', (m.own #[v]).2.frames[k]? = some frame' ∧ frame.parent = frame'.parent := by
    intro k frame hframe
    rw [frames_bind, Array.getElem?_modify] at hframe
    split at hframe
    · rw [Option.map_eq_some_iff] at hframe
      obtain ⟨frame', hframe', rfl⟩ := hframe
      exact ⟨frame', hframe', rfl⟩
    · exact ⟨frame, hframe, rfl⟩
  refine ⟨?_, ?_, ?_⟩
  · rw [frames_bind, Array.size_modify]
    exact hown.current
  · intro k frame p hk hp
    obtain ⟨frame', hk', hparent⟩ := hframe k frame hk
    exact hown.parents k frame' p hk' (hparent.symm.trans hp)
  · intro frame hk
    obtain ⟨frame', hk', hparent⟩ := hframe globalScope frame hk
    rw [hparent]
    exact hown.global frame' hk'

/-- A variable that was just made is what its name means, and no other name is touched. -/
theorem lookup_bind {m : Machine} (hm : m.Nested) (id : Nat) (t : CType) (v : Value) (n : Nat) :
    (m.bind id t v).lookup n = if n = id then some ⟨m.arena.next, t⟩ else m.lookup n := by
  have halike := alike_own m #[v]
  have hown := halike.nested hm
  have hcurrent : (m.bind id t v).current = m.current := rfl
  rw [← halike.lookup n, Machine.lookup, frames_bind, Array.size_modify, hcurrent, Machine.lookup,
    halike.current]
  obtain ⟨steps, hsteps⟩ : ∃ steps, (m.own #[v]).2.frames.size = steps + 1 :=
    Nat.exists_eq_add_one.mpr (Nat.zero_lt_of_lt hown.current)
  obtain ⟨frame, hframe⟩ : ∃ frame, (m.own #[v]).2.frames[m.current]? = some frame :=
    ⟨_, Array.getElem?_eq_getElem hown.current⟩
  rw [hsteps, lookupFrom, lookupFrom, Array.getElem?_modify, if_pos rfl, hframe, Option.map_some]
  dsimp only
  rw [lookup_bind_frame]
  by_cases hn : n = id
  · rw [if_pos hn, if_pos hn]
  · rw [if_neg hn, if_neg hn]
    have hparent : (frame.bind id ⟨m.arena.next, t⟩).parent = frame.parent := rfl
    rw [hparent]
    cases hp : frame.parent with
    | none => rfl
    | some p => simp only [lookupFrom_modify hown _ n steps _ (hown.parents _ frame p hframe hp)]

/-- A variable that was made in another scope than the global one is not seen there. -/
theorem lookupGlobal_bind_local {m : Machine} (h : m.current ≠ globalScope) (id : Nat) (t : CType)
    (v : Value) (n : Nat) : (m.bind id t v).lookupGlobal n = m.lookupGlobal n := by
  refine (lookupGlobal_congr ?_ n).trans
    (lookupGlobal_congr ((alike_own m #[v]).faces globalScope) n)
  rw [face, face, frames_bind, Array.getElem?_modify, if_neg h]

/-- In the global scope, names mean what they mean in the current one if that is the global one. -/
theorem lookupGlobal_eq {m : Machine} (hm : m.Nested) (h : m.current = globalScope) (n : Nat) :
    m.lookupGlobal n = m.lookup n := by
  obtain ⟨steps, hsteps⟩ : ∃ steps, m.frames.size = steps + 1 :=
    Nat.exists_eq_add_one.mpr (Nat.zero_lt_of_lt hm.current)
  rw [Machine.lookup, h, hsteps, lookupFrom, lookupGlobal]
  cases hframe : m.frames[globalScope]? with
  | none => rfl
  | some frame =>
    dsimp only [Option.bind_some]
    rw [hm.global frame hframe]
    cases frame.lookup n <;> rfl

end Machine

end MiniC
