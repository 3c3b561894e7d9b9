import MiniC.Proofs.Names.Invariant

set_option autoImplicit false

/-! # What parts of a run ensure

A part of a run ensures something if the names that it looks up are resolved, if it stops for
allowed reasons only, and if what it is to ensure is true of its result, of the history and of the
state at its end. Steps that make no variables keep the invariant; opening a scope and leaving it,
calling a function, and making a variable change it in a way that is stated here once. -/

namespace MiniC

open Machine

namespace Run

variable {α β : Type} {S : Setting} {G Γ Δ : Meanings} {Ω : List Leaf}

/-- Whether a part of a run that begins with a history and a state ensures `Q`. -/
structure Ensures (S : Setting) (x : Run α) (h : History) (m : Machine)
    (Q : α → History → Machine → Prop) : Prop where
  uses : Uses (fun h m leaf => ¬S.hasGotos → S.Resolved h m leaf) h (x.trace m)
  ok : ∀ a t, x.exec m = .ok a t → Q a (h.after (x.trace m)) t
  error : ∀ stop t, x.exec m = .error stop t → S.Allows stop

namespace Ensures

variable {h : History} {m : Machine}

theorem pure {a : α} {Q : α → History → Machine → Prop} (hQ : Q a h m) :
    Ensures S (pure a) h m Q where
  uses := trivial
  ok := by
    rintro _ _ ⟨⟩
    exact hQ
  error _ _ h := by cases h

theorem stop {stop : Stop} {Q : α → History → Machine → Prop} (hstop : S.Allows stop) :
    Ensures S (throw stop) h m Q where
  uses := trivial
  ok _ _ h := by cases h
  error := by
    rintro _ _ ⟨⟩
    exact hstop

theorem stop_bind {stop : Stop} {f : α → Run β} {Q : β → History → Machine → Prop}
    (hstop : S.Allows stop) : Ensures S ((throw stop : Run α) >>= f) h m Q where
  uses := trivial
  ok _ _ h := by cases h
  error := by
    rintro _ _ ⟨⟩
    exact hstop

theorem get_bind {f : Machine → Run β} {Q : β → History → Machine → Prop}
    (hf : Ensures S (f m) h m Q) : Ensures S (get >>= f) h m Q :=
  ⟨hf.uses, hf.ok, hf.error⟩

theorem modifyGet {f : Machine → α × Machine} {Q : α → History → Machine → Prop}
    (hQ : Q (f m).1 h (f m).2) : Ensures S (modifyGet f) h m Q where
  uses := .silent _ _
  ok := by
    rintro _ _ ⟨⟩
    exact hQ
  error _ _ h := by cases h

theorem modify {f : Machine → Machine} {Q : PUnit → History → Machine → Prop}
    (hQ : Q () h (f m)) : Ensures S (modify f) h m Q :=
  modifyGet hQ

theorem bind {x : Run α} {f : α → Run β} {P : α → History → Machine → Prop}
    {Q : β → History → Machine → Prop} (hx : Ensures S x h m P)
    (hf : ∀ a h' t, P a h' t → Ensures S (f a) h' t Q) : Ensures S (x >>= f) h m Q := by
  cases hexec : x.exec m with
  | ok a t =>
    have hrest := hf a _ t (hx.ok a t hexec)
    refine ⟨?_, ?_, ?_⟩
    · rw [Traced.trace_bind_of_ok f hexec]
      exact hx.uses.append hrest.uses
    · rw [Traced.trace_bind_of_ok f hexec, Traced.exec_bind_of_ok f hexec, History.after_append]
      exact hrest.ok
    · rw [Traced.exec_bind_of_ok f hexec]
      exact hrest.error
  | error stop t =>
    refine ⟨?_, ?_, ?_⟩
    · rw [Traced.trace_bind_of_error f hexec]
      exact hx.uses
    · rw [Traced.exec_bind_of_error f hexec]
      exact fun _ _ h => by cases h
    · rw [Traced.exec_bind_of_error f hexec]
      rintro _ _ ⟨⟩
      exact hx.error stop t hexec

theorem imp {x : Run α} {P Q : α → History → Machine → Prop} (hx : Ensures S x h m P)
    (hPQ : ∀ a h' t, P a h' t → Q a h' t) : Ensures S x h m Q :=
  ⟨hx.uses, fun a t hexec => hPQ a _ t (hx.ok a t hexec), hx.error⟩

theorem located {x : Run α} {Q : α → History → Machine → Prop} (hx : Ensures S x h m Q)
    (pos : Option Position) : Ensures S (located pos x) h m Q where
  uses := hx.uses
  ok a t hexec := by
    refine hx.ok a t ?_
    simp only [Run.located, Traced.mapError] at hexec
    cases hx' : x.exec m with
    | ok b u =>
      rw [hx'] at hexec
      exact hexec
    | error stop u =>
      rw [hx'] at hexec
      cases hexec
  error stop t hexec := by
    simp only [Run.located, Traced.mapError] at hexec
    cases hx' : x.exec m with
    | ok b u =>
      rw [hx'] at hexec
      cases hexec
    | error stop' u =>
      rw [hx'] at hexec
      cases hexec
      exact (hx.error _ t hx').locate pos

/-- A part of a run between two changes of the state, which may be a call. -/
theorem between {x : Run α} {first last : Option Deed} {enter leave : Machine → Machine}
    {P Q : α → History → Machine → Prop}
    (hfirst : ∀ leaf, first ≠ some (.use leaf)) (hlast : ∀ leaf, last ≠ some (.use leaf))
    (hx : Ensures S x (h.step ⟨first, enter m⟩) (enter m) P)
    (hPQ : ∀ a h' t, x.exec (enter m) = .ok a t → P a h' t →
      Q a (h'.step ⟨last, leave t⟩) (leave t)) :
    Ensures S (x.between first last enter leave) h m Q where
  uses := by
    refine ⟨fun leaf hleaf => absurd hleaf (hfirst leaf), hx.uses.append ?_⟩
    exact ⟨fun leaf hleaf => absurd hleaf (hlast leaf), trivial⟩
  ok a t hexec := by
    simp only [Traced.between] at hexec
    cases hx' : x.exec (enter m) with
    | ok b u =>
      rw [hx'] at hexec
      cases hexec
      have hafter : x.after (enter m) = u := Traced.after_of_ok hx'
      have hQ := hPQ _ _ u hx' (hx.ok _ u hx')
      simpa [Traced.between, History.after_append, hafter] using hQ
    | error stop u =>
      rw [hx'] at hexec
      cases hexec
  error stop t hexec := by
    simp only [Traced.between] at hexec
    cases hx' : x.exec (enter m) with
    | ok b u =>
      rw [hx'] at hexec
      cases hexec
    | error stop' u =>
      rw [hx'] at hexec
      cases hexec
      exact hx.error _ u hx'

end Ensures

/-! ## Steps that make no variables -/

/-- A part of a run that keeps the invariant, and adds nothing to the history. -/
def Keeps (S : Setting) (G Γ : Meanings) (Ω : List Leaf) (x : Run α) : Prop :=
  ∀ h m, S.Inv G Γ Ω h m → Ensures S x h m fun _ h' t => h' = h ∧ S.Inv G Γ Ω h t

theorem Keeps.bind_ensures {x : Run α} {f : α → Run β} {h : History} {m : Machine}
    {Q : β → History → Machine → Prop} (hx : Keeps S G Γ Ω x) (hm : S.Inv G Γ Ω h m)
    (hf : ∀ a t, S.Inv G Γ Ω h t → Ensures S (f a) h t Q) : Ensures S (x >>= f) h m Q := by
  refine (hx h m hm).bind ?_
  rintro a _ t ⟨rfl, ht⟩
  exact hf a t ht

/-- A change of the state that leaves the variables, the scopes and the functions alone. -/
theorem keeps_change {f : Machine → α × Machine} (halike : ∀ m : Machine, m.Alike (f m).2)
    (hfunctions : ∀ m, (f m).2.functions = m.functions)
    (hprototypes : ∀ m, (f m).2.prototypes = m.prototypes)
    (hnext : ∀ m, m.arena.next ≤ (f m).2.arena.next) : Keeps S G Γ Ω (modifyGet f) :=
  fun _ m hm => .modifyGet ⟨rfl, hm.congr (halike m) (hfunctions m) (hprototypes m) (hnext m)⟩

theorem keeps_get : Keeps S G Γ Ω (get : Run Machine) :=
  fun _ _ hm => ⟨trivial, by rintro _ _ ⟨⟩; exact ⟨rfl, hm⟩, fun _ _ h => by cases h⟩

theorem keeps_owning : Owning (Keeps S G Γ Ω) where
  pure _ := fun _ _ hm => .pure ⟨rfl, hm⟩
  bind hx hf := fun _ _ hm => hx.bind_ensures hm fun a t ht => hf a _ t ht
  stop hstop _ := fun _ _ _ => .stop (.inl (Bool.or_eq_false_iff.mp hstop).1)
  observe _ hf := fun _ _ hm => keeps_get.bind_ensures hm fun m t ht =>
    hf m (fun _ _ _ _ _ => .stop (.inl rfl)) _ t ht
  alloc values := keeps_change (fun _ => alike_of_frames rfl rfl) (fun _ => rfl) (fun _ => rfl)
    fun m => (m.arena.grows_alloc values).next
  put p v := keeps_change (fun _ => alike_of_frames rfl rfl) (fun _ => rfl) (fun _ => rfl)
    fun m => (m.arena.grows_put p v).next
  beside f hf _ := by
    have hsame : ∀ m, (f m).2.frames = m.frames ∧ (f m).2.current = m.current ∧
        (f m).2.functions = m.functions ∧ (f m).2.prototypes = m.prototypes ∧
        (f m).2.arena = m.arena := by
      intro m
      obtain ⟨records, output, events, -, h⟩ := hf m
      rw [h]
      exact ⟨rfl, rfl, rfl, rfl, rfl⟩
    refine keeps_change (fun m => alike_of_frames (hsame m).1 (hsame m).2.1)
      (fun m => (hsame m).2.2.1) (fun m => (hsame m).2.2.2.1) fun m => ?_
    exact Nat.le_of_eq (congrArg Arena.next (hsame m).2.2.2.2.symm)
  own values := keeps_change (fun m => alike_own m values) (fun _ => rfl) (fun _ => rfl)
    fun m => (m.arena.grows_alloc values).next
  keepString slot values := keeps_change (fun _ => alike_of_frames rfl rfl) (fun _ => rfl)
    (fun _ => rfl) fun m => (m.arena.grows_alloc values).next

theorem keeps_declares : Declares (Keeps S G Γ Ω) := fun _ =>
  keeps_change (fun _ => alike_of_frames rfl rfl) (fun _ => rfl) (fun _ => rfl) fun _ =>
    Nat.le_refl _

/-! ## Occurrences of names -/

/-- An occurrence of a name that is linked is resolved where it is looked up. -/
theorem keeps_use {leaf : Leaf} (hlinked : (Expr.identifier leaf).Linked S.toLinkage Γ) :
    Keeps S G Γ Ω (Traced.note (.use leaf) : Run Unit) := by
  intro h m hm
  refine ⟨⟨?_, trivial⟩, ?_, fun _ _ h => by cases h⟩
  · rintro _ ⟨⟩ hfree
    exact hm.resolved hfree hlinked
  · rintro _ _ ⟨⟩
    exact ⟨rfl, hm⟩

/-- A name that is linked means a variable, unless there are jumps to labels. -/
theorem hasGotos_of_lookup {leaf : Leaf} {h : History} {m : Machine} (hm : S.Inv G Γ Ω h m)
    (hlinked : (Expr.identifier leaf).Linked S.toLinkage Γ)
    (hnone : placeOf? m leaf.token = none) : S.hasGotos := by
  by_contra hfree
  obtain ⟨v, b, o, -, hb, -⟩ := hm.resolved hfree hlinked
  rw [placeOf?, hb] at hnone
  cases hnone

theorem keeps_variablePlace {leaf : Leaf}
    (hlinked : (Expr.identifier leaf).Linked S.toLinkage Γ) :
    Keeps S G Γ Ω (variablePlace leaf.token) := by
  intro h m hm
  refine .get_bind ?_
  cases hplace : placeOf? m leaf.token with
  | none => exact .stop (.inr (.inr ⟨hasGotos_of_lookup hm hlinked hplace, _, _, rfl⟩))
  | some place => exact .pure ⟨rfl, hm⟩

theorem keeps_variableFor {leaf : Leaf} (hlinked : (Expr.identifier leaf).Linked S.toLinkage Γ)
    (v : Value) : Keeps S G Γ Ω (variableFor leaf.token v) := by
  intro h m hm
  refine .get_bind ?_
  cases hplace : placeOf? m leaf.token with
  | some place => exact .pure ⟨rfl, hm⟩
  | none =>
    have hgotos := hasGotos_of_lookup hm hlinked hplace
    have hbind : ∀ t zero, Keeps S G Γ Ω (modify fun m : Machine => m.bind leaf.token.id t zero) := by
      intro t zero h m hm
      refine .modify ⟨rfl, ?_⟩
      refine ⟨nested_bind hm.nested _ t zero, hm.links.congr rfl rfl, hm.functions, hm.level, ?_⟩
      exact fun hfree => absurd hgotos hfree
    have hP : Owning (Keeps S G Γ Ω) := keeps_owning
    refine hP.bind (hP.typeOfValue _ v) (fun t => ?_) h m hm
    refine hP.bind (hP.zeroValue t) fun zero => hP.bind (hbind t zero) fun _ => ?_
    exact keeps_variablePlace hlinked

/-! ## New variables -/

/-- What a declaration ensures that makes its variable. -/
theorem ensures_introduce {h : History} {m : Machine} (hm : m.Nested) {leaf : Leaf} {t : CType}
    {v : Value} {Q : Unit → History → Machine → Prop}
    (hQ : Q () (h.add leaf ⟨m.arena.next, t⟩) (m.bind leaf.token.id t v)) :
    Ensures S (introduce leaf t v) h m Q := by
  have hstep : h.step ⟨some (.declare leaf), m.bind leaf.token.id t v⟩ =
      h.add leaf ⟨m.arena.next, t⟩ := by
    simp only [History.step, lookup_bind hm, if_pos]
  refine Ensures.bind (P := fun _ h' t' => h' = h ∧ t' = m.bind leaf.token.id t v)
    (.modify ⟨rfl, rfl⟩) ?_
  rintro _ _ _ ⟨rfl, rfl⟩
  refine ⟨⟨fun _ h => (by cases h), trivial⟩, ?_, fun _ _ h => (by cases h)⟩
  rintro _ _ ⟨⟩
  rw [Traced.trace_note, History.after_cons, History.after_nil, hstep]
  exact hQ

/-- The handles of variables after one more was made. -/
theorem handles_add {h : History} {m : Machine} (hm : S.Tracks G Γ Ω h m) (leaf : Leaf) (t : CType)
    (v : Value) :
    (∀ e ∈ (h.add leaf ⟨m.arena.next, t⟩).visible,
      e.2.handle < (m.bind leaf.token.id t v).arena.next) ∧
    ((h.add leaf ⟨m.arena.next, t⟩).visible.map (·.2.handle)).Nodup := by
  rw [History.visible_add, arena_bind, Arena.next_alloc, List.map_cons, List.nodup_cons]
  refine ⟨?_, ?_, hm.distinct⟩
  · intro e he
    rcases List.mem_cons.mp he with rfl | he
    · exact Nat.lt_succ_self _
    · exact Nat.lt_succ_of_lt (hm.fresh e he)
  · intro hmem
    obtain ⟨e, he, heq⟩ := List.mem_map.mp hmem
    exact Nat.ne_of_lt (hm.fresh e he) heq

/-- A declaration in a call makes a variable of the innermost scope there. -/
theorem ensures_introduce_local {h : History} {m : Machine} (hm : S.Inv G Γ Ω h m)
    (hcalls : h.calls ≠ []) {leaf : Leaf} (hleaf : leaf ∈ Ω) (t : CType) (v : Value) :
    Ensures S (introduce leaf t v) h m fun _ h' t =>
      History.Adds [leaf] h h' ∧ S.Inv G (Γ.declare leaf) Ω h' t := by
  have hcurrent : m.current ≠ globalScope := fun h => hcalls (hm.level.mpr h)
  have hadds := History.adds_add hcalls (List.mem_singleton_self leaf) ⟨m.arena.next, t⟩
  refine ensures_introduce hm.nested ⟨hadds, nested_bind hm.nested _ t v, hm.links.congr rfl rfl,
    hm.functions.declareAll [leaf], hadds.level.trans hm.level, fun hfree => ?_⟩
  have htracks := hm.tracks hfree
  obtain ⟨hfresh, hdistinct⟩ := handles_add htracks leaf t v
  refine ⟨hfresh, hdistinct, ?_, ?_⟩
  · rw [hadds.global]
    exact htracks.outermost.congr (lookupGlobal_bind_local hcurrent _ t v) (fun _ _ => rfl)
      fun _ => id
  · exact htracks.here.declare hleaf (lookup_bind hm.nested _ t v) (History.latest_add h leaf _)

end Run

namespace Setting

variable {S : Setting} {G G' : Meanings}

theorem Ready.mono {f : FunctionDef} (hf : S.Ready G f) (hG : G.Within G') : S.Ready G' f where
  body := by
    obtain ⟨Γ, hΓ, hbody⟩ := hf.body
    exact ⟨Γ, fun id meaning hid => hG id meaning (hΓ id meaning hid), hbody⟩
  placed := hf.placed

/-- The functions of a state are also those of meanings in which more names mean something. -/
theorem Links.mono {m : Machine} (hm : S.Links G m) (hG : G.Within G')
    (hnew : ∀ id n, G' id = some (.function n) → G id = some (.function n)) : S.Links G' m where
  ready id f hf := by
    obtain ⟨hready, harity, hprint⟩ := hm.ready id f hf
    exact ⟨hready.mono hG, hG id _ harity, hprint⟩
  known id n hn := hm.known id n (hnew id n hn)

end Setting

namespace Run

variable {S : Setting} {G : Meanings}

/-- A declaration at the global level makes a global variable. -/
theorem ensures_introduce_global {h : History} {m : Machine} (hm : S.Inv G G S.globals h m)
    (hcalls : h.calls = []) {leaf : Leaf} (hleaf : leaf ∈ S.globals)
    (hnew : G leaf.token.id = none) (t : CType) (v : Value) :
    Ensures S (introduce leaf t v) h m fun _ h' t =>
      h'.calls = [] ∧ S.Inv (G.declare leaf) (G.declare leaf) S.globals h' t := by
  have hcurrent : m.current = globalScope := hm.level.mp hcalls
  have hadd : (h.add leaf ⟨m.arena.next, t⟩).calls = [] := by
    rw [History.add, hcalls]
  have hwithin : G.Within (G.declare leaf) := by
    intro id meaning hid
    rw [Meanings.declare, Meanings.set_other]
    · exact hid
    · rintro rfl
      rw [hnew] at hid
      cases hid
  have hfunctions : (G.declare leaf).FunctionsIn G := by
    exact Meanings.FunctionsIn.declareAll (fun _ _ => id) [leaf]
  refine ensures_introduce hm.nested ⟨hadd, nested_bind hm.nested _ t v,
    (hm.links.mono hwithin hfunctions).congr rfl rfl, fun _ _ => id, ?_, fun hfree => ?_⟩
  · exact ⟨fun _ => hcurrent, fun _ => hadd⟩
  · have htracks := hm.tracks hfree
    obtain ⟨hfresh, hdistinct⟩ := handles_add htracks leaf t v
    have hhere := htracks.here.declare hleaf (lookup_bind hm.nested leaf.token.id t v)
      (History.latest_add h leaf ⟨m.arena.next, t⟩)
    refine ⟨hfresh, hdistinct, ?_, hhere⟩
    refine hhere.congr (fun id => ?_) (fun l _ => ?_) fun _ => id
    · exact lookupGlobal_eq (nested_bind hm.nested _ t v) hcurrent id
    · rw [History.latest, History.visible, History.activation, hadd]
      rfl

end Run

/-! ## Scopes and calls -/

namespace Setting

variable {S : Setting} {G Γ Δ : Meanings} {Ω Ω' : List Leaf} {h h' : History} {m t : Machine}

/-- A scope is opened inside the current one. -/
theorem Inv.push (hm : S.Inv G Γ Ω h m) (hcalls : h.calls ≠ []) (hsub : ∀ l ∈ Ω, l ∈ Ω') :
    S.Inv G Γ Ω' h (m.push m.current) where
  nested := nested_push hm.nested hm.nested.current
  links := hm.links.congr rfl rfl
  functions := hm.functions
  level := by
    have hsize : m.frames.size ≠ globalScope := Nat.ne_of_gt (Nat.zero_lt_of_lt hm.nested.current)
    exact ⟨fun h => absurd h hcalls, fun h => absurd h hsize⟩
  tracks hfree := by
    have htracks := hm.tracks hfree
    refine ⟨htracks.fresh, htracks.distinct, ?_, ?_⟩
    · exact htracks.outermost.congr (lookupGlobal_push hm.nested _) (fun _ _ => rfl) fun _ => id
    · exact htracks.here.congr (lookup_push hm.nested) (fun _ _ => rfl) hsub

/-- The scope of a function is opened. -/
theorem Inv.enterCall (hm : S.Inv G Γ Ω h m) (name : String) (hΔ : Δ.Within G)
    (hsub : ∀ l ∈ S.globals, l ∈ Ω') :
    S.Inv G Δ Ω' { h with calls := [] :: h.calls } (m.enterCall name) where
  nested := by
    have hpush := nested_push hm.nested (Nat.zero_lt_of_lt hm.nested.current)
    exact ⟨hpush.current, hpush.parents, hpush.global⟩
  links := hm.links.congr rfl rfl
  functions id n hn := hΔ id _ hn
  level := by
    have hsize : m.frames.size ≠ globalScope := Nat.ne_of_gt (Nat.zero_lt_of_lt hm.nested.current)
    exact ⟨(fun h => by cases h), fun h => absurd h hsize⟩
  tracks hfree := by
    have htracks := hm.tracks hfree
    have hvisible : h.visible = h.activation ++ h.global := rfl
    refine ⟨?_, ?_, ?_, ?_⟩
    · intro e he
      exact htracks.fresh e (by rw [hvisible]; exact List.mem_append_right _ he)
    · have hdistinct := htracks.distinct
      rw [hvisible, List.map_append] at hdistinct
      exact hdistinct.of_append_right
    · exact htracks.outermost.congr (lookupGlobal_push hm.nested globalScope) (fun _ _ => rfl)
        fun _ => id
    · refine (htracks.outermost.weaken fun id l hl => hΔ id _ hl).congr ?_ (fun _ _ => rfl) hsub
      exact lookup_enterCall hm.nested name

/-- A state with the same scopes as before, after new variables came and went. -/
theorem Inv.restore (hm : S.Inv G Γ Ω h m) {leaves : List Leaf} (hadds : History.Adds leaves h h')
    (hapart : ∀ l ∈ leaves, l ∉ Ω) (hframes : t.frames = m.frames) (hcurrent : t.current = m.current)
    (hlinks : S.Links G t)
    (hhandles : ¬S.hasGotos → (∀ e ∈ h'.visible, e.2.handle < t.arena.next) ∧
      (h'.visible.map (·.2.handle)).Nodup) : S.Inv G Γ Ω h' t where
  nested := (alike_of_frames hframes hcurrent).nested hm.nested
  links := hlinks
  functions := hm.functions
  level := by rw [hadds.level, hcurrent, hm.level]
  tracks hfree := by
    have htracks := hm.tracks hfree
    have halike := alike_of_frames hframes hcurrent
    refine ⟨(hhandles hfree).1, (hhandles hfree).2, ?_, ?_⟩
    · rw [hadds.global]
      exact htracks.outermost.congr (lookupGlobal_congr (halike.faces globalScope))
        (fun _ _ => rfl) fun _ => id
    · refine htracks.here.congr halike.lookup (fun o ho => hadds.latest ?_) fun _ => id
      exact fun hmem => hapart o hmem ho

end Setting

namespace Run

variable {α : Type} {S : Setting} {G Γ : Meanings} {Ω Ω' : List Leaf}

theorem links_pop {t : Machine} (ht : S.Links G t) : S.Links G t.pop := by
  refine ht.congr ?_ ?_
  · unfold pop
    split <;> rfl
  · unfold pop
    split <;> rfl

theorem next_pop (t : Machine) : t.pop.arena.next = t.arena.next := by
  cases hback : t.frames.back? with
  | none => rw [pop, hback]
  | some frame => rw [pop_eq hback, Arena.next_freeAll]

/-- A part of a run in a scope of its own. What it declares is new, and is not seen after it. -/
theorem ensures_inScope {x : Run α} (hx : Bracketed x) {h : History} {m : Machine}
    (hm : S.Inv G Γ Ω h m) {leaves : List Leaf} (hapart : ∀ l ∈ leaves, l ∉ Ω) {P : α → Prop}
    (hbody : Ensures S x h (m.push m.current) fun a h' t =>
      P a ∧ History.Adds leaves h h' ∧ ∃ Δ, S.Inv G Δ Ω' h' t) :
    Ensures S (inScope x) h m fun a h' t =>
      P a ∧ History.Adds leaves h h' ∧ S.Inv G Γ Ω h' t := by
  refine Ensures.between (fun _ h => by cases h) (fun _ h => by cases h) hbody ?_
  rintro a h' t hexec ⟨hP, hadds, Δ, ht⟩
  have hafter : x.after (m.push m.current) = t := Traced.after_of_ok hexec
  have hwithin := (hx (m.push m.current)).1
  rw [hafter] at hwithin
  have hframes := ((opens_push m m.current).pop hwithin).1
  refine ⟨hP, hadds, hm.restore hadds hapart hframes (leave_push hwithin).1 (links_pop ht.links) ?_⟩
  intro hfree
  rw [next_pop]
  exact ⟨(ht.tracks hfree).fresh, (ht.tracks hfree).distinct⟩

/-- A call leaves the history and the state as they were, as far as variables go. -/
theorem ensures_inCall {x : Run α} (hx : Bracketed x) {h : History} {m : Machine} {name : String}
    (hm : S.Inv G Γ Ω h m) {leaves : List Leaf} {P : α → Prop}
    (hbody : Ensures S x { h with calls := [] :: h.calls } (m.enterCall name) fun a h' t =>
      P a ∧ History.Adds leaves { h with calls := [] :: h.calls } h' ∧ ∃ Δ, S.Inv G Δ Ω' h' t) :
    Ensures S (inCall name x) h m fun a h' t => P a ∧ h' = h ∧ S.Inv G Γ Ω h t := by
  refine .get_bind (Ensures.between (fun _ h => by cases h) (fun _ h => by cases h) hbody ?_)
  rintro a h' t hexec ⟨hP, hadds, Δ, ht⟩
  have hafter : x.after (m.enterCall name) = t := Traced.after_of_ok hexec
  have hwithin := (hx (m.enterCall name)).1
  rw [hafter] at hwithin
  have hframes := ((opens_enterCall m name).pop hwithin).1
  refine ⟨hP, hadds.leave, ?_⟩
  refine hm.restore (History.Adds.refl [] h) (fun _ h => by cases h) hframes rfl ?_ fun hfree => ?_
  · exact (links_pop ht.links).congr rfl rfl
  · have hnext := ((hx (m.enterCall name)).2 _ (Traced.mem_states_after x _)).next
    rw [hafter] at hnext
    refine ⟨fun e he => ?_, (hm.tracks hfree).distinct⟩
    rw [leaveCall, next_pop]
    exact Nat.lt_of_lt_of_le ((hm.tracks hfree).fresh e he) hnext

end Run

end MiniC
