import MiniC.CType.Struct
import MiniC.Proofs.Analyses

set_option autoImplicit false

/-! # Where the types that the analysis writes down come from

The analysis writes down types for type names, variables and literals, under the numbers of their
leaves. What it writes down for a type name is what the words of the name stand for. -/

namespace MiniC

/-- Whether a type may be that of an occurrence. That of a type name is what its words name, with
some declarations of the structs. -/
def Occurrence.Allows : Occurrence → CType → Prop
  | .expr _, _ => True
  | .type name, t => ∃ find?, CType.ofWords find? name.words = .ok t

/-- Whether all types that were found belong to leaves of the given occurrences, which allow them. -/
def Analysis.Founded (a : Analysis) (l : List Occurrence) : Prop :=
  ∀ slot t, a.annotations[slot]? = some t → ∃ o ∈ l, o.slot? = some slot ∧ o.Allows t

theorem Analysis.founded_start (l : List Occurrence) : Analysis.start.Founded l := by
  intro slot t h
  rw [Analysis.start, Std.HashMap.getElem?_empty] at h
  cases h

namespace Check

variable {α β : Type} {l : List Occurrence}

/-- Whether all that a step of the analysis writes down is founded if what it begins with is. -/
def Founds (l : List Occurrence) (x : Check α) : Prop :=
  ∀ a : Analysis, a.Founded l → (x.after a).Founded l

theorem Founds.bind {x : Check α} {f : α → Check β} (hx : Founds l x) (hf : ∀ r, Founds l (f r)) :
    Founds l (x >>= f) := by
  intro a ha
  have hafter := hx a ha
  cases hexec : x.exec a with
  | ok r t =>
    rw [Traced.after_of_ok hexec] at hafter
    rw [Traced.after_bind_of_ok f hexec]
    exact hf r t hafter
  | error e t =>
    rw [Traced.after_bind_of_error f hexec]
    exact hafter

/-- A change of other things than what is written down. -/
theorem founds_modify {f : Analysis → Analysis} (hf : ∀ a, (f a).annotations = a.annotations) :
    Founds l (modify f : Check PUnit) := by
  intro a ha
  rw [Analysis.Founded, ← hf a] at ha
  exact ha

theorem founds_annotate {o : Occurrence} {slot : Nat} {t : CType} (ho : o ∈ l)
    (hslot : o.slot? = some slot) (ht : o.Allows t) : Founds l (annotate slot t) := by
  intro a ha
  cases hknown : a.annotations[slot]? with
  | some known =>
    -- a type that was written down earlier stays
    have hsame : (annotate slot t).exec a = .ok known a := by
      rw [annotate, Traced.exec_bind_of_ok _ (Traced.exec_get a), hknown]
      rfl
    rw [Traced.after_of_ok hsame]
    exact ha
  | none =>
    have hnew : (annotate slot t).exec a =
        .ok t { a with annotations := a.annotations.insert slot t } := by
      rw [annotate, Traced.exec_bind_of_ok _ (Traced.exec_get a), hknown]
      rfl
    rw [Traced.after_of_ok hnew]
    intro slot' t' h
    rw [Std.HashMap.getElem?_insert] at h
    split at h
    · rename_i heq
      cases h
      exact ⟨o, ho, by rw [hslot, eq_of_beq heq], ht⟩
    · exact ha slot' t' h

theorem closed_founds (l : List Occurrence) : Closed (Founds l) where
  pure _ := fun _ ha => ha
  bind := Founds.bind
  fail _ _ := fun _ ha => ha
  get := fun _ ha => ha

theorem founds_modifyScope (i : Nat) (f : StaticScope → StaticScope) :
    Founds l (modifyScope i f) :=
  founds_modify fun _ => rfl

theorem founds_composed (l : List Occurrence) : Declaring (Founds l) l where
  toClosed := closed_founds l
  note _ := fun _ ha => ha
  variableType leaf hleaf := (closed_founds l).variableType (fun _ _ ha => ha) fun t =>
    founds_annotate hleaf rfl trivial
  literal leaf kind hleaf := founds_annotate hleaf rfl trivial
  resolve name hname := by
    refine Founds.bind (fun _ ha => ha) fun a => ?_
    split
    · exact fun _ ha => ha
    · rename_i t ht
      exact (founds_annotate hname rfl ⟨_, ht⟩).bind fun _ _ ha => ha
  structs f := founds_modify fun _ => rfl
  declare := (closed_founds l).declare fun i f _ => founds_modifyScope i f
  label := (closed_founds l).label fun i f _ => founds_modifyScope i f
  goto := (closed_founds l).goto fun i f _ => founds_modifyScope i f
  scope kind f hbody := by
    have henter : Founds l (enter kind f) := founds_modify fun _ => rfl
    have hleave : Founds l leave := founds_modify fun _ => rfl
    exact henter.bind fun _ => Founds.bind hbody fun _ => hleave

end Check

/-- All types that the analysis of a program writes down are founded. -/
theorem Program.founded_check (p : Program) : p.check.2.Founded p.occurrences := by
  have hcomposed := Check.founds_composed p.occurrences
  have hfounds : Check.Founds p.occurrences (Check.program p) := by
    refine hcomposed.program p fun i hi head hhead => ?_
    refine hcomposed.declareHead hhead (fun _ ho => List.mem_flatMap_of_mem hi ho) ?_
    exact (Check.closed_founds _).signature fun i f _ => Check.founds_modifyScope i f
  have hcheck : p.check.2 = (Check.program p).after .start := by
    rw [check, Traced.after]
    cases (Check.program p).exec .start <;> rfl
  rw [hcheck]
  exact hfounds .start (Analysis.founded_start _)

end MiniC
