import MiniC.Proofs.Initializers

set_option autoImplicit false

/-! # The algebra of pointers and places

An element of what a pointer points to is the place that the sum of the pointer and the index points
to; the address of what a pointer points to is the pointer; and what the address of a place points
to is the place. None of these looks at what is in the place, so they hold of pointers to nowhere as
well: only reading or writing the place can fail. -/

namespace MiniC

namespace Expr

/-- The sum of two expressions. -/
def sum (p i : Expr) : Expr := .binary (.arith .add) p i

/-- What the sum of two expressions points to. -/
def derefSum (p i : Expr) : Expr := .unary .deref (.parens (p.sum i))

end Expr

namespace Run

variable {ctx : Context} {p i L : Expr} {m m' : Machine} {q : Pointer} {n : MachineInt}

/-- Whether one expression yields a pointer and another one, evaluated after it, an integer. -/
def Points (ctx : Context) (p i : Expr) (m : Machine) (q : Pointer) (n : MachineInt)
    (m' : Machine) : Prop :=
  ∃ m₁, (eval ctx p).exec m = .ok (.pointer q) m₁ ∧ (eval ctx i).exec m₁ = .ok (.int n) m'

/-! ## Elements -/

/-- A pointer and an integer are added without a look at what the pointer points to. -/
theorem exec_add (q : Pointer) (n : MachineInt) (pos : Position) (m : Machine) :
    (arith .add (.pointer q) (.int n) pos).exec m = .ok (.pointer (q.moved n.value)) m :=
  rfl

theorem exec_eval_sum (h : Points ctx p i m q n m') :
    (eval ctx (p.sum i)).exec m = .ok (.pointer (q.moved n.value)) m' := by
  obtain ⟨m₁, hp, hi⟩ := h
  rw [Expr.sum, eval, Traced.exec_bind_of_ok _ hp, Traced.exec_bind_of_ok _ hi]
  exact exec_add q n p.pos m'

theorem exec_place_index (h : Points ctx p i m q n m') (new : Option Value) :
    (place ctx new (.index p i)).exec m = .ok (.slot (q.moved n.value)) m' := by
  obtain ⟨m₁, hp, hi⟩ := h
  rw [place, Traced.exec_bind_of_ok _ hp, Traced.exec_bind_of_ok _ hi]
  rfl

/-- The place that an expression points to. -/
theorem exec_place_deref (h : (eval ctx p).exec m = .ok (.pointer q) m') (new : Option Value) :
    (place ctx new (.unary .deref p)).exec m = .ok (.slot q) m' := by
  rw [place, Traced.exec_bind_of_ok _ h]
  rfl

theorem exec_place_derefSum (h : Points ctx p i m q n m') (new : Option Value) :
    (place ctx new (p.derefSum i)).exec m = .ok (.slot (q.moved n.value)) m' := by
  refine exec_place_deref ?_ new
  rw [eval]
  exact exec_eval_sum h

theorem exec_eval_index (h : Points ctx p i m q n m') :
    (eval ctx (.index p i)).exec m = (load (q.moved n.value)).exec m' := by
  obtain ⟨m₁, hp, hi⟩ := h
  rw [eval, Traced.exec_bind_of_ok _ hp, Traced.exec_bind_of_ok _ hi]
  rfl

theorem exec_eval_derefSum (h : Points ctx p i m q n m') :
    (eval ctx (p.derefSum i)).exec m = (load (q.moved n.value)).exec m' := by
  have hsum : (eval ctx (.parens (p.sum i))).exec m = .ok (.pointer (q.moved n.value)) m' := by
    rw [eval]
    exact exec_eval_sum h
  rw [Expr.derefSum, eval, Traced.exec_bind_of_ok _ hsum]
  · rfl
  · exact nofun

/-! ## Addresses -/

/-- The address of a slot is the pointer to it. -/
theorem exec_eval_address {e : Expr} (h : (place ctx none e).exec m = .ok (.slot q) m') :
    (eval ctx (.unary .address e)).exec m = .ok (.pointer q) m' := by
  rw [eval, Traced.exec_bind_of_ok _ h]
  rfl

/-- Where an expression denotes a place already, it denotes the same place when it is given a
value. -/
theorem exec_place_of_none {found : Place} (new : Option Value) : ∀ L : Expr,
    (place ctx none L).exec m = .ok found m' → (place ctx new L).exec m = .ok found m'
  | .parens e => exec_place_of_none new e
  | .identifier leaf => by
    intro h
    cases new with
    | none => exact h
    | some v =>
      change (Traced.note (.use leaf) >>= fun _ => variablePlace leaf.token).exec m = _ at h
      change (Traced.note (.use leaf) >>= fun _ => variableFor leaf.token v).exec m = _
      obtain ⟨_, m₁, hnote, h, -⟩ := Traced.exec_bind_eq_ok h
      rw [Traced.exec_bind_of_ok _ hnote]
      unfold variablePlace at h
      unfold variableFor
      rw [Traced.exec_bind_of_ok _ (Traced.exec_get m₁)] at h ⊢
      cases hplace : placeOf? m₁ leaf.token with
      | none =>
        rw [hplace] at h
        cases h
      | some place' =>
        rw [hplace] at h
        exact h
  | .unary op e => by cases op <;> exact id
  | .literal .. | .step .. | .binary .. | .assign .. | .conditional .. | .call .. | .index ..
  | .member .. | .arrow .. | .sizeOf .. | .cast .. | .list .. => id

/-- What the address of a place points to is the place, unless it is a field of a struct; and it is
not there if the place is not. -/
theorem exec_place_deref_address (new : Option Value)
    (h : ∀ record name t m', (place ctx none L).exec m ≠ .ok (.field record name t) m') :
    (place ctx new (.unary .deref (.unary .address L))).exec m = (place ctx none L).exec m := by
  cases hL : (place ctx none L).exec m with
  | ok found m' =>
    cases found with
    | slot q => exact exec_place_deref (exec_eval_address hL) new
    | field record name t => exact absurd hL (h record name t m')
  | error stop m' =>
    have haddress : (eval ctx (.unary .address L)).exec m = .error stop m' := by
      rw [eval, Traced.exec_bind_of_error _ hL]
    rw [place, Traced.exec_bind_of_error _ haddress]

/-! ## The algebra -/

/-- Two expressions at the same position that denote the same place are incremented and decremented
alike. -/
theorem exec_step_congr {a b : Expr}
    (h : (place ctx none a).exec m = (place ctx none b).exec m) (hpos : a.pos = b.pos)
    (op : StepOp) :
    (eval ctx (.step op a)).exec m = (eval ctx (.step op b)).exec m := by
  rw [eval, eval, hpos]
  exact Traced.exec_bind_congr h fun _ _ _ => rfl

/-- Two expressions at the same position that denote the same place once the value is there are
assigned to alike. -/
theorem exec_assign_congr {a b e : Expr}
    (h : ∀ v m₀, (eval ctx e).exec m = .ok v m₀ → ∀ new,
      (place ctx new a).exec m₀ = (place ctx new b).exec m₀) (hpos : a.pos = b.pos)
    (op : Option ArithOp) :
    (eval ctx (.assign op a e)).exec m = (eval ctx (.assign op b e)).exec m := by
  cases op with
  | none =>
    rw [eval, eval, hpos]
    exact Traced.exec_bind_congr rfl fun v m₀ hv =>
      Traced.exec_bind_congr (h v m₀ hv (some v)) fun _ _ _ => rfl
  | some op =>
    rw [eval, eval, hpos]
    exact Traced.exec_bind_congr rfl fun v m₀ hv =>
      Traced.exec_bind_congr (h v m₀ hv none) fun _ _ _ => rfl

/-- The algebra of pointers and places, in every state and for all expressions. Where `p` yields a
pointer and `i` an integer, `p[i]` and `*(p + i)` denote the same slot, have the same value or stop
alike, and are incremented and assigned to with the same effect, and `&p[i]` is the value of
`p + i`; `&*p` is the value of `p`; and `*&L` denotes the same slot as `L`, also where a value is
to be put in it. -/
theorem pointer_algebra (ctx : Context) (p i L : Expr) (m : Machine) :
    (∀ q n m', Points ctx p i m q n m' →
      (∀ new, (place ctx new (.index p i)).exec m = .ok (.slot (q.moved n.value)) m' ∧
        (place ctx new (p.derefSum i)).exec m = .ok (.slot (q.moved n.value)) m') ∧
      (eval ctx (.index p i)).exec m = (eval ctx (p.derefSum i)).exec m ∧
      (∀ op, (eval ctx (.step op (.index p i))).exec m =
        (eval ctx (.step op (p.derefSum i))).exec m) ∧
      (eval ctx (.unary .address (.index p i))).exec m = .ok (.pointer (q.moved n.value)) m' ∧
      (eval ctx (p.sum i)).exec m = .ok (.pointer (q.moved n.value)) m') ∧
    (∀ op e, (∀ v m₀, (eval ctx e).exec m = .ok v m₀ → ∃ q n m', Points ctx p i m₀ q n m') →
      (eval ctx (.assign op (.index p i) e)).exec m =
        (eval ctx (.assign op (p.derefSum i) e)).exec m) ∧
    (∀ q m', (eval ctx p).exec m = .ok (.pointer q) m' →
      (eval ctx (.unary .address (.unary .deref p))).exec m = .ok (.pointer q) m') ∧
    ((∀ record name t m', (place ctx none L).exec m ≠ .ok (.field record name t) m') → ∀ new,
      (place ctx new (.unary .deref (.unary .address L))).exec m = (place ctx none L).exec m ∧
      ∀ found m', (place ctx none L).exec m = .ok found m' →
        (place ctx new L).exec m = .ok found m') := by
  refine ⟨fun q n m' h => ?_, fun op e h => ?_, fun q m' h => ?_, fun h new => ?_⟩
  · have hindex := exec_place_index h
    have hderef := exec_place_derefSum h
    refine ⟨fun new => ⟨hindex new, hderef new⟩, ?_, fun op => ?_, ?_, exec_eval_sum h⟩
    · rw [exec_eval_index h, exec_eval_derefSum h]
    · exact exec_step_congr ((hindex none).trans (hderef none).symm) rfl op
    · exact exec_eval_address (hindex none)
  · have hplace : ∀ v m₀, (eval ctx e).exec m = .ok v m₀ → ∀ new,
        (place ctx new (.index p i)).exec m₀ = (place ctx new (p.derefSum i)).exec m₀ := by
      intro v m₀ hv new
      obtain ⟨q, n, m', hpoints⟩ := h v m₀ hv
      exact (exec_place_index hpoints new).trans (exec_place_derefSum hpoints new).symm
    exact exec_assign_congr hplace rfl op
  · exact exec_eval_address (exec_place_deref h none)
  · exact ⟨exec_place_deref_address new h, fun found m' => exec_place_of_none new L⟩

/-- The string literal at the beginning of a text. -/
def sampleBase : Expr := sampleString "ab" 1 1 0

/-- The address of the second character of a string is the string with one added, and what it points
to is that character. -/
theorem pointer_algebra_string :
    let ctx : Context := ⟨fun _ => none, fun _ _ _ => throw .unfinished⟩
    let element : Expr := .index sampleBase (Program.sampleNumber "1" 2 6 1)
    ∃ m, (eval ctx (.unary .address element)).exec .start = .ok (.pointer ⟨1, 1, some .char⟩) m ∧
      (place ctx none (.unary .deref (.unary .address element))).exec .start =
        .ok (.slot ⟨1, 1, some .char⟩) m := by
  intro ctx element
  have hbase : EStateM.run' (eval ctx sampleBase).exec .start =
      some (.pointer ⟨1, 0, some .char⟩) := by cbv
  obtain ⟨m, hbase⟩ := Traced.exists_exec_of_run' hbase
  let kind : LiteralKind := .integer .plain true .decimal
  have hindex : (Program.sampleToken (.literal kind) "1" 2 6).value kind = .int (.plain 1) := by
    decide +kernel
  have hpoints : Points ctx sampleBase (Program.sampleNumber "1" 2 6 1) .start
      ⟨1, 0, some .char⟩ (.plain 1) m :=
    ⟨m, hbase, congrArg (fun v => EStateM.Result.ok v m) hindex⟩
  obtain ⟨halgebra, -, -, haddress⟩ := pointer_algebra ctx sampleBase
    (Program.sampleNumber "1" 2 6 1) element .start
  obtain ⟨hplace, -, -, hpointer, -⟩ := halgebra _ _ m hpoints
  have hslot := (hplace none).1
  have hfield : ∀ record name t m',
      (place ctx none element).exec .start ≠ .ok (.field record name t) m' := by
    intro record name t m' h
    cases hslot.symm.trans h
  exact ⟨m, hpointer, (haddress hfield none).1.trans hslot⟩

example :
    let ctx : Context := ⟨fun _ => none, fun _ _ _ => throw .unfinished⟩
    let one : Expr := Program.sampleNumber "1" 2 6 1
    EStateM.run' (eval ctx (.index sampleBase one)).exec .start =
      EStateM.run' (eval ctx (sampleBase.derefSum one)).exec .start := by decide +kernel

end Run

end MiniC
