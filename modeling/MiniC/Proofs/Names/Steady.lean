import MiniC.Proofs.Analyses

set_option autoImplicit false

/-! # Steps of the analysis that leave the scopes alone

Most rules of the analysis compute with types: they change no scope and find out nothing about
names. -/

namespace MiniC.Check

open Traced

variable {α β : Type}

/-! ## Steps that find out nothing about names -/

/-- A step that notes nothing down. -/
def Quiet (x : Check α) : Prop :=
  ∀ a, ∀ moment ∈ x.trace a, moment.deed = none

theorem quiet_pure (r : α) : Quiet (pure r : Check α) :=
  fun _ _ h => by cases h

theorem quiet_fail (cause : SemanticCause) (pos : Option Position) :
    Quiet (fail cause pos : Check α) :=
  fun _ _ h => by cases h

theorem quiet_failAt (cause : SemanticCause) (pos : Position) : Quiet (failAt cause pos : Check α) :=
  quiet_fail cause _

theorem quiet_get : Quiet (get : Check Analysis) :=
  fun _ _ h => by cases h

theorem quiet_modify (f : Analysis → Analysis) : Quiet (modify f : Check PUnit) := by
  intro a moment h
  rw [trace_modify, List.mem_singleton] at h
  rw [h]

theorem quiet_bind {x : Check α} {f : α → Check β} (hx : Quiet x) (hf : ∀ r, Quiet (f r)) :
    Quiet (x >>= f) := by
  intro a moment h
  cases hexec : x.exec a with
  | ok r t =>
    rw [trace_bind_of_ok f hexec, List.mem_append] at h
    rcases h with h | h
    · exact hx a moment h
    · exact hf r t moment h
  | error e t =>
    rw [trace_bind_of_error f hexec] at h
    exact hx a moment h

theorem quiet_ite {p : Prop} [Decidable p] {x y : Check α} (hx : Quiet x) (hy : Quiet y) :
    Quiet (if p then x else y) := by
  split
  · exact hx
  · exact hy

/-- A step that ends with an error in one case, and goes on in the other one. -/
theorem quiet_reject {c : Prop} [Decidable c] {cause : SemanticCause} {pos : Position}
    {f : α → Check β} {x : Check β} (hx : Quiet x) :
    Quiet (if c then failAt cause pos >>= f else x) := by
  split
  · exact fun _ _ h => by cases h
  · exact hx

/-! ## Steady steps -/

/-- A step that changes no scope, leaves none, and notes nothing down. -/
structure Steady (x : Check α) : Prop where
  still : ∀ D a, Yields D x a fun _ a' => a'.scopes = a.scopes ∧ a'.current = a.current
  quiet : Quiet x

theorem steady_pure (r : α) : Steady (pure r : Check α) :=
  ⟨fun _ _ => yields_pure ⟨rfl, rfl⟩, quiet_pure r⟩

theorem steady_fail (cause : SemanticCause) (pos : Option Position) :
    Steady (fail cause pos : Check α) :=
  ⟨fun _ _ => yields_throw, quiet_fail cause pos⟩

theorem steady_failAt (cause : SemanticCause) (pos : Position) :
    Steady (failAt cause pos : Check α) :=
  steady_fail cause _

theorem steady_get : Steady (get : Check Analysis) :=
  ⟨fun _ _ => yields_get ⟨rfl, rfl⟩, quiet_get⟩

theorem steady_modify {f : Analysis → Analysis}
    (hf : ∀ a, (f a).scopes = a.scopes ∧ (f a).current = a.current) :
    Steady (modify f : Check PUnit) :=
  ⟨fun _ a => yields_modify (hf a), quiet_modify f⟩

theorem steady_bind {x : Check α} {f : α → Check β} (hx : Steady x) (hf : ∀ r, Steady (f r)) :
    Steady (x >>= f) := by
  refine ⟨fun D a => ?_, quiet_bind hx.quiet fun r => (hf r).quiet⟩
  refine (hx.still D a).bind fun r t ht => ((hf r).still D t).imp fun _ u hu => ?_
  exact ⟨hu.1.trans ht.1, hu.2.trans ht.2⟩

theorem steady_closed : Closed Steady :=
  ⟨steady_pure, steady_bind, steady_fail, steady_get⟩

theorem steady_annotate (slot : Nat) (t : CType) : Steady (annotate slot t) :=
  steady_closed.annotate (steady_modify fun _ => ⟨rfl, rfl⟩)

theorem steady_resolve (name : TypeName) : Steady (resolve name) :=
  steady_closed.resolve (steady_annotate name.slot)

theorem steady_widerType (cause : SemanticCause) (pos : Position) (left right : CType) :
    Steady (widerType cause pos left right) :=
  steady_closed.widerType cause pos left right

theorem steady_operatorType (op : BinaryOp) (left right : CType) (pos : Position) :
    Steady (operatorType op left right pos) :=
  steady_closed.operatorType op left right pos

theorem steady_unaryType (op : UnaryOp) (isPlace : Bool) (t : CType) (pos : Position) :
    Steady (unaryType op isPlace t pos) :=
  steady_closed.unaryType op isPlace t pos

theorem steady_condition (t : CType) (pos : Position) : Steady (condition t pos) :=
  steady_closed.condition t pos

theorem steady_implicitCast (cause : CastError → SemanticCause) (src dst : CType)
    (pos : Position) : Steady (implicitCast cause src dst pos) :=
  steady_closed.implicitCast cause src dst pos

theorem steady_fieldType (cause : CType → SemanticCause) (t : CType)
    (members : Option (List Field)) (field : Leaf) (pos : Position) :
    Steady (fieldType cause t members field pos) :=
  steady_closed.fieldType cause t members field pos

theorem steady_resolveGotos (labels : List String) (gotos : List Token) :
    Steady (resolveGotos labels gotos) :=
  steady_closed.resolveGotos labels gotos

end MiniC.Check
