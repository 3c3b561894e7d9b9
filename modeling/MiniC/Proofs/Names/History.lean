import MiniC.Proofs.Names.Keyed
import MiniC.Proofs.Names.Linked
import MiniC.Proofs.Trace
import MiniC.Run.Basic

set_option autoImplicit false

/-! # Which declaration made a variable

A history keeps the variables that declarations and parameters have made: for every call that is
open, and at the global level. It is read off the trace of a run, so that what a lookup finds can be
compared with the variable that the latest execution of a given declaration has made. -/

namespace MiniC

/-- Variables with the declarations that made them, the last one first: those of the calls that are
open, the innermost call first, and those at the global level. -/
structure History where
  calls : List (List (Leaf × Binding))
  global : List (Leaf × Binding)

namespace History

/-- The history at the start of a run. -/
def start : History := ⟨[], []⟩

/-- The variables of the innermost call. -/
def activation (h : History) : List (Leaf × Binding) := h.calls.headD []

/-- The variables of the innermost call, and the global ones. -/
def visible (h : History) : List (Leaf × Binding) := h.activation ++ h.global

/-- The variable that the latest execution of a declaration has made in the innermost call or at the
global level. -/
def latest (h : History) (leaf : Leaf) : Option Binding := h.visible.lookup leaf

/-- The history after a declaration has made a variable. -/
def add (h : History) (leaf : Leaf) (b : Binding) : History :=
  match h.calls with
  | [] => { h with global := (leaf, b) :: h.global }
  | activation :: rest => { h with calls := ((leaf, b) :: activation) :: rest }

/-- The history after a moment of a run. A declaration has just made the variable that its name
means then. -/
def step (h : History) (moment : Moment Deed Machine) : History :=
  match moment.deed with
  | some .call => { h with calls := [] :: h.calls }
  | some .return => { h with calls := h.calls.tail }
  | some (.declare leaf) =>
    match moment.state.lookup leaf.token.id with
    | none => h
    | some b => h.add leaf b
  | _ => h

/-- The history after several moments of a run. -/
def after (h : History) (moments : List (Moment Deed Machine)) : History :=
  moments.foldl step h

@[simp]
theorem after_nil (h : History) : h.after [] = h := rfl

@[simp]
theorem after_cons (h : History) (moment : Moment Deed Machine)
    (rest : List (Moment Deed Machine)) : h.after (moment :: rest) = (h.step moment).after rest :=
  rfl

theorem after_append (h : History) (before rest : List (Moment Deed Machine)) :
    h.after (before ++ rest) = (h.after before).after rest :=
  List.foldl_append

/-- A change of the state alone is no news. -/
@[simp]
theorem step_silent (h : History) (m : Machine) : h.step ⟨none, m⟩ = h := rfl

theorem visible_add (h : History) (leaf : Leaf) (b : Binding) :
    (h.add leaf b).visible = (leaf, b) :: h.visible := by
  unfold add visible activation
  split
  · rename_i hcalls
    rw [hcalls]
    rfl
  · rename_i hcalls
    rw [hcalls]
    rfl

theorem latest_add (h : History) (leaf : Leaf) (b : Binding) (l : Leaf) :
    (h.add leaf b).latest l = if l = leaf then some b else h.latest l := by
  rw [latest, visible_add, lookup_cons_ite]
  rfl

/-! ## Where variables come from -/

/-- The variables that a history keeps. -/
def kept (h : History) : List (Leaf × Binding) := h.calls.flatten ++ h.global

theorem mem_kept_of_latest {h : History} {leaf : Leaf} {b : Binding}
    (hlatest : h.latest leaf = some b) : (leaf, b) ∈ h.kept := by
  rcases List.mem_append.mp (mem_of_lookup hlatest) with hmem | hmem
  · refine List.mem_append_left _ (List.mem_flatten.mpr ⟨h.activation, ?_, hmem⟩)
    unfold activation at hmem ⊢
    cases hcalls : h.calls with
    | nil =>
      rw [hcalls] at hmem
      cases hmem
    | cons activation rest => exact List.mem_cons_self
  · exact List.mem_append_right _ hmem

theorem mem_kept_add {h : History} {leaf : Leaf} {b : Binding} {e : Leaf × Binding}
    (he : e ∈ (h.add leaf b).kept) : e = (leaf, b) ∨ e ∈ h.kept := by
  unfold add at he
  split at he
  · rename_i hcalls
    simp only [kept, hcalls, List.flatten_nil, List.nil_append, List.mem_cons] at he ⊢
    exact he
  · rename_i hcalls
    simp only [kept, hcalls, List.flatten_cons, List.cons_append, List.mem_cons] at he ⊢
    exact he

/-- A moment adds the variable of a declaration at most. -/
theorem mem_kept_step {h : History} {moment : Moment Deed Machine} {e : Leaf × Binding}
    (he : e ∈ (h.step moment).kept) : e ∈ h.kept ∨ moment.deed = some (.declare e.1) ∧
      moment.state.lookup e.1.token.id = some e.2 := by
  unfold step at he
  split at he
  · exact .inl he
  · refine .inl ?_
    rcases List.mem_append.mp he with he | he
    · obtain ⟨activation, hactivation, he⟩ := List.mem_flatten.mp he
      refine List.mem_append_left _ (List.mem_flatten.mpr ⟨activation, ?_, he⟩)
      exact List.mem_of_mem_tail hactivation
    · exact List.mem_append_right _ he
  · rename_i leaf hdeed
    split at he
    · exact .inl he
    · rename_i b hb
      rcases mem_kept_add he with rfl | he
      · exact .inr ⟨hdeed, hb⟩
      · exact .inl he
  · exact .inl he

/-- A variable that is kept after some moments was kept before, or a declaration has made it at one
of them. -/
theorem mem_kept_after {h : History} {moments : List (Moment Deed Machine)} {e : Leaf × Binding}
    (he : e ∈ (h.after moments).kept) : e ∈ h.kept ∨ ∃ moment ∈ moments,
      moment.deed = some (.declare e.1) ∧ moment.state.lookup e.1.token.id = some e.2 := by
  induction moments generalizing h with
  | nil => exact .inl he
  | cons moment rest ih =>
    rcases ih he with he | ⟨later, hlater, hmade⟩
    · exact (mem_kept_step he).imp_right fun hmade => ⟨moment, List.mem_cons_self, hmade⟩
    · exact .inr ⟨later, List.mem_cons_of_mem _ hlater, hmade⟩

/-- The latest variable of a declaration was made by it. -/
theorem declared_of_latest {moments : List (Moment Deed Machine)} {leaf : Leaf} {b : Binding}
    (hlatest : (start.after moments).latest leaf = some b) : ∃ moment ∈ moments,
      moment.deed = some (.declare leaf) ∧ moment.state.lookup leaf.token.id = some b :=
  (mem_kept_after (mem_kept_of_latest hlatest)).resolve_left List.not_mem_nil

/-! ## What comes new in a call -/

/-- Whether a history is one after another one, with new variables in the innermost call only, made
by some of the given declarations. -/
structure Adds (leaves : List Leaf) (h h' : History) : Prop where
  global : h'.global = h.global
  outer : h'.calls.tail = h.calls.tail
  level : h'.calls = [] ↔ h.calls = []
  new : ∃ new, h'.activation = new ++ h.activation ∧ ∀ e ∈ new, e.1 ∈ leaves

theorem Adds.refl (leaves : List Leaf) (h : History) : Adds leaves h h :=
  ⟨rfl, rfl, Iff.rfl, [], rfl, fun _ h => by cases h⟩

theorem Adds.trans {leaves : List Leaf} {h h' h'' : History} (h₁ : Adds leaves h h')
    (h₂ : Adds leaves h' h'') : Adds leaves h h'' := by
  obtain ⟨new, hnew, hmem⟩ := h₁.new
  obtain ⟨new', hnew', hmem'⟩ := h₂.new
  refine ⟨h₂.global.trans h₁.global, h₂.outer.trans h₁.outer, h₂.level.trans h₁.level,
    new' ++ new, ?_, ?_⟩
  · rw [hnew', hnew, List.append_assoc]
  · intro e he
    rcases List.mem_append.mp he with he | he
    · exact hmem' e he
    · exact hmem e he

theorem Adds.mono {leaves leaves' : List Leaf} {h h' : History} (hadds : Adds leaves h h')
    (hsub : ∀ l ∈ leaves, l ∈ leaves') : Adds leaves' h h' := by
  obtain ⟨new, hnew, hmem⟩ := hadds.new
  exact ⟨hadds.global, hadds.outer, hadds.level, new, hnew, fun e he => hsub _ (hmem e he)⟩

/-- A new variable of the innermost call. -/
theorem adds_add {leaves : List Leaf} {h : History} (hcalls : h.calls ≠ []) {leaf : Leaf}
    (hleaf : leaf ∈ leaves) (b : Binding) : Adds leaves h (h.add leaf b) := by
  obtain ⟨calls, global⟩ := h
  cases calls with
  | nil => exact absurd rfl hcalls
  | cons activation rest =>
    refine ⟨rfl, rfl, ?_, [(leaf, b)], rfl, ?_⟩
    · simp [add]
    · intro e he
      rw [List.mem_singleton.mp he]
      exact hleaf

/-- Other declarations have the same latest variable as before. -/
theorem Adds.latest {leaves : List Leaf} {h h' : History} (hadds : Adds leaves h h') {l : Leaf}
    (hl : l ∉ leaves) : h'.latest l = h.latest l := by
  obtain ⟨new, hnew, hmem⟩ := hadds.new
  rw [History.latest, History.latest, visible, visible, hnew, hadds.global, List.append_assoc,
    List.lookup_append]
  have hnone : new.lookup l = none := by
    rw [List.lookup_eq_none_iff]
    intro e he
    rw [bne_iff_ne]
    rintro rfl
    exact hl (hmem e he)
  rw [hnone, Option.none_or]

/-- The history after a call that made variables of its own is the history before it. -/
theorem Adds.leave {leaves : List Leaf} {h h' : History}
    (hadds : Adds leaves { h with calls := [] :: h.calls } h') :
    { h' with calls := h'.calls.tail } = h := by
  rw [hadds.outer, hadds.global, List.tail_cons]

end History

/-! ## Properties of the names that a run looks up -/

/-- Whether `R` holds whenever a name is looked up as a variable in a part of a run that begins with
the history `h`. -/
def Uses (R : History → Machine → Leaf → Prop) :
    History → List (Moment Deed Machine) → Prop
  | _, [] => True
  | h, moment :: rest =>
    (∀ leaf, moment.deed = some (.use leaf) → R h moment.state leaf) ∧ Uses R (h.step moment) rest

namespace Uses

variable {R : History → Machine → Leaf → Prop}

theorem append {h : History} {before rest : List (Moment Deed Machine)} (hbefore : Uses R h before)
    (hrest : Uses R (h.after before) rest) : Uses R h (before ++ rest) := by
  induction before generalizing h with
  | nil => exact hrest
  | cons moment before ih => exact ⟨hbefore.1, ih hbefore.2 hrest⟩

/-- What holds at a moment somewhere in a run. -/
theorem at_moment {h : History} {before rest : List (Moment Deed Machine)}
    {moment : Moment Deed Machine} {leaf : Leaf} (huses : Uses R h (before ++ moment :: rest))
    (hdeed : moment.deed = some (.use leaf)) : R (h.after before) moment.state leaf := by
  induction before generalizing h with
  | nil => exact huses.1 leaf hdeed
  | cons first before ih => exact ih huses.2

/-- In a part of a run in which only the state changes, no name is looked up. -/
theorem silent (h : History) (m : Machine) : Uses R h [⟨none, m⟩] :=
  ⟨fun _ h => (by cases h), trivial⟩

end Uses

end MiniC
