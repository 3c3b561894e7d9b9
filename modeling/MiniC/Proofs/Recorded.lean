import MiniC.Proofs.Analyses
import MiniC.Proofs.Composed

set_option autoImplicit false

/-! # The states of the parts of a computation

A run, and an analysis, ends in the state in which it begins or in one that is in its trace. So all
states that the parts of a computation pass through are among those of the whole computation, and
what is known of the latter is known of the former. -/

namespace MiniC

namespace Traced

variable {ε σ δ α β : Type}

/-- Whether a computation ends in the state in which it begins, or in one that is in its trace. -/
def Recorded (x : Traced ε σ δ α) : Prop :=
  ∀ s, x.after s ∈ s :: (x.trace s).map (·.state)

theorem Recorded.bind {x : Traced ε σ δ α} {f : α → Traced ε σ δ β} (hx : Recorded x)
    (hf : ∀ a, Recorded (f a)) : Recorded (x >>= f) := by
  intro s
  cases h : x.exec s with
  | error e t =>
    rw [after_bind_of_error f h, trace_bind_of_error f h]
    exact hx s
  | ok a t =>
    have hfirst := hx s
    rw [after_of_ok h] at hfirst
    rw [after_bind_of_ok f h, trace_bind_of_ok f h, List.map_append, ← List.cons_append]
    rcases List.mem_cons.mp (hf a t) with heq | hmem
    · rw [heq]
      exact List.mem_append_left _ hfirst
    · exact List.mem_append_right _ hmem

theorem recorded_mapError (g : ε → ε) {x : Traced ε σ δ α} (hx : Recorded x) :
    Recorded (x.mapError g) := by
  intro s
  rw [after_mapError]
  exact hx s

theorem recorded_between (first last : Option δ) (enter leave : σ → σ) (x : Traced ε σ δ α) :
    Recorded (x.between first last enter leave) := by
  intro s
  rw [after_between]
  simp [between]

section States

variable {x : Traced ε σ δ α} {s t : σ} {a : α}

/-- The first part of a computation passes through no other states than the computation. -/
theorem Recorded.states_subset_bind (hx : Recorded x) (f : α → Traced ε σ δ β) :
    x.states s ⊆ (x >>= f).states s := by
  have hrecorded : x.states s ⊆ s :: (x.trace s).map (·.state) :=
    List.append_subset.mpr ⟨List.Subset.refl _, List.cons_subset.mpr ⟨hx s, List.nil_subset _⟩⟩
  cases h : x.exec s with
  | error e t =>
    rw [states_bind_of_error f h]
    exact List.Subset.refl _
  | ok a t =>
    rw [states_bind_of_ok f h]
    exact List.Subset.trans hrecorded (List.subset_append_left _ _)

/-- The second part of a computation passes through no other states than the computation. -/
theorem Recorded.states_subset_of_ok (hx : Recorded x) (f : α → Traced ε σ δ β)
    (h : x.exec s = .ok a t) : (f a).states t ⊆ (x >>= f).states s := by
  have hmiddle := hx s
  rw [after_of_ok h] at hmiddle
  rw [states_bind_of_ok f h]
  intro u hu
  rcases List.mem_cons.mp hu with rfl | hu
  · exact List.mem_append_left _ hmiddle
  · exact List.mem_append_right _ hu

/-- What holds in all states of a computation holds in all states of both of its parts. -/
theorem Recorded.parts {f : α → Traced ε σ δ β} {b : β} {u : σ} {W : σ → Prop} (hx : Recorded x)
    (h : (x >>= f).exec s = .ok b u) (hW : ∀ v ∈ (x >>= f).states s, W v) :
    ∃ a t, x.exec s = .ok a t ∧ (∀ v ∈ x.states s, W v) ∧ (f a).exec t = .ok b u ∧
      ∀ v ∈ (f a).states t, W v := by
  obtain ⟨a, t, hfirst, hsecond, -⟩ := exec_bind_eq_ok h
  exact ⟨a, t, hfirst, fun v hv => hW v (hx.states_subset_bind f hv), hsecond,
    fun v hv => hW v (hx.states_subset_of_ok f hfirst hv)⟩

end States

end Traced

open Traced

theorem Run.composed_recorded : Run.Composed fun x => Recorded x where
  pure _ := fun _ => List.mem_cons_self
  bind := Recorded.bind
  stop _ _ := fun _ => List.mem_cons_self
  anyStop _ _ _ := fun _ => List.mem_cons_self
  missingLabel _ _ := fun _ => List.mem_cons_self
  observe _ hf := fun m => hf m (fun _ _ _ => List.mem_cons_self) m
  observeName _ _ _ hf := fun m => hf m m
  alloc _ := fun _ => List.mem_cons_of_mem _ List.mem_cons_self
  put _ _ := fun _ => List.mem_cons_of_mem _ List.mem_cons_self
  beside _ _ _ := fun _ => List.mem_cons_of_mem _ List.mem_cons_self
  own _ := fun _ => List.mem_cons_of_mem _ List.mem_cons_self
  keepString _ _ := fun _ => List.mem_cons_of_mem _ List.mem_cons_self
  use _ := fun _ => List.mem_cons_self
  bindName _ _ _ := fun _ => List.mem_cons_of_mem _ List.mem_cons_self
  introduce _ _ _ := Recorded.bind (fun _ => List.mem_cons_of_mem _ List.mem_cons_self) fun _ =>
    fun _ => List.mem_cons_self
  register _ _ _ := fun _ => List.mem_cons_of_mem _ List.mem_cons_self
  located _ hx := recorded_mapError _ hx
  inScope _ := recorded_between _ _ _ _ _
  inCall _ _ := Recorded.bind (fun _ => List.mem_cons_self) fun _ => recorded_between _ _ _ _ _

namespace Check

theorem closed_recorded : Closed fun x => Recorded x where
  pure _ := fun _ => List.mem_cons_self
  bind := Recorded.bind
  fail _ _ := fun _ => List.mem_cons_self
  get := fun _ => List.mem_cons_self

theorem recorded_annotate (slot : Nat) (t : CType) : Recorded (annotate slot t) :=
  closed_recorded.annotate fun _ => List.mem_cons_of_mem _ List.mem_cons_self

theorem recorded_modifyScope (i : Nat) (f : StaticScope → StaticScope) :
    Recorded (modifyScope i f) :=
  fun _ => List.mem_cons_of_mem _ List.mem_cons_self

theorem composed_recorded (l : List Occurrence) : Composed (fun x => Recorded x) l where
  toClosed := closed_recorded
  note _ := fun _ => List.mem_cons_self
  variableType leaf _ := closed_recorded.variableType (fun _ _ => List.mem_cons_self)
    (recorded_annotate leaf.slot)
  literal leaf kind _ := recorded_annotate leaf.slot kind.ctype
  resolve name _ := closed_recorded.resolve (recorded_annotate name.slot)
  declare := closed_recorded.declare fun i f _ => recorded_modifyScope i f
  label := closed_recorded.label fun i f _ => recorded_modifyScope i f
  goto := closed_recorded.goto fun i f _ => recorded_modifyScope i f
  scope _ _ hbody := by
    refine Recorded.bind (fun _ => List.mem_cons_of_mem _ List.mem_cons_self) fun _ => ?_
    exact hbody.bind fun _ _ => List.mem_cons_of_mem _ List.mem_cons_self

end Check

end MiniC
