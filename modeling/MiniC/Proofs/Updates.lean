import MiniC.Proofs.Places
import MiniC.Proofs.Ranges

set_option autoImplicit false

/-! # Compound assignments

A compound assignment finds its place once and gives it what the operator computes from its own
value and the right side. Where neither side changes the state, that is what the plain assignment of
the sum, difference and so on does, although the latter looks at the left side twice and evaluates
the right side in between. The increments and decrements find their place once, too: the operands of
the place are evaluated one after another, and nothing is evaluated afterwards. -/

namespace MiniC

/-! ## The operands of a place -/

namespace Expr

/-- The expressions that are evaluated to find the place that an expression denotes, in order. -/
def operands : Expr → List Expr
  | .parens e => e.operands
  | .unary .deref e => [e]
  | .index base i => [base, i]
  | .member e _ => [e]
  | .arrow e _ => [e]
  | _ => []

/-- The place that an expression denotes if its operands have the given values. -/
def placeAt : Expr → List Value → Run Place
  | .identifier leaf, _ => do
    Traced.note (.use leaf)
    Run.variablePlace leaf.token
  | .parens e, vs => e.placeAt vs
  | .unary .deref e, [v] => Run.target e.pos v
  | .index base _, [v, n] => Run.element base.pos v n
  | .member e field, [v] => Run.member e.pos field.token v
  | .arrow e field, [v] => Run.arrow e.pos field.token v
  | e, _ => Run.failAt .notAssignable e.pos

/-- The names that are looked up to find the place that an expression denotes, apart from those in
its operands. -/
def uses : Expr → List Deed
  | .identifier leaf => [.use leaf]
  | .parens e => e.uses
  | _ => []

end Expr

namespace Run

variable {ctx : Context} {L e : Expr} {m m' : Machine} {op : ArithOp}

theorem evalAll_one (e : Expr) :
    evalAll ctx [e] = do
      let v ← eval ctx e
      return [v] := by
  rw [evalAll, evalAll]
  simp only [pure_bind]

theorem evalAll_two (first second : Expr) :
    evalAll ctx [first, second] = do
      let v ← eval ctx first
      let w ← eval ctx second
      return [v, w] := by
  rw [evalAll, evalAll_one]
  simp only [bind_assoc, pure_bind]

/-- The place that an expression denotes is found from the values of its operands, each of which is
evaluated once. -/
theorem place_eq : ∀ L : Expr, place ctx none L = evalAll ctx L.operands >>= L.placeAt
  | .parens e => by
    rw [place, place_eq e]
    rfl
  | .unary .deref e | .member e field | .arrow e field => by
    rw [place, Expr.operands, evalAll_one, bind_assoc]
    simp only [pure_bind]
    rfl
  | .index base i => by
    rw [place, Expr.operands, evalAll_two]
    simp only [bind_assoc, pure_bind]
    rfl
  | .unary .negate _ | .unary .plus _ | .unary .not _ | .unary .complement _ | .unary .address _
  | .identifier .. | .literal .. | .step .. | .binary .. | .assign .. | .conditional .. | .call ..
  | .sizeOf .. | .cast .. | .list .. => by
    change _ = evalAll ctx [] >>= _
    rw [evalAll, pure_bind]
    rfl

/-- The value of an expression that denotes a place is what is in the place. -/
theorem eval_eq_read : ∀ L : Expr, L.isPlace → eval ctx L = place ctx none L >>= Place.read
  | .parens e, h => by
    rw [eval, eval_eq_read e h, place]
  | .identifier leaf, _ => by
    change _ = (Traced.note (.use leaf) >>= fun _ => variablePlace leaf.token) >>= Place.read
    rw [eval, bind_assoc]
  | .unary .deref e, _ | .member e field, _ | .arrow e field, _ => by
    rw [place, bind_assoc]
    rfl
  | .index base i, _ => by
    rw [place]
    simp only [bind_assoc]
    rfl

/-! ## What is evaluated -/

/-- A compound assignment evaluates its right side and then the operands of its left side, each of
them once, and goes on with their values. -/
theorem eval_assign_some_eq (op : ArithOp) (L e : Expr) :
    eval ctx (.assign (some op) L e) =
      eval ctx e >>= fun v => evalAll ctx L.operands >>= fun vs =>
        L.placeAt vs >>= fun found => update op found v L.pos := by
  rw [eval]
  simp only [place_eq, bind_assoc]

/-- An increment or decrement evaluates the operands of the place, each of them once, and goes on
with their values. -/
theorem eval_step_eq (op : StepOp) (L : Expr) :
    eval ctx (.step op L) =
      evalAll ctx L.operands >>= fun vs => L.placeAt vs >>= fun found => step op found L.pos := by
  rw [eval, place_eq, bind_assoc]

/-- Whether no name is looked up in a run, and nothing is called and declared. -/
def Deedless {α : Type} (x : Run α) : Prop :=
  ∀ m, x.deeds m = []

section Deedless

variable {α β : Type}

theorem Deedless.bind {x : Run α} {f : α → Run β} (hx : Deedless x) (hf : ∀ a, Deedless (f a)) :
    Deedless (x >>= f) := by
  intro m
  cases hexec : x.exec m with
  | ok a t => rw [Traced.deeds_bind_of_ok f hexec, hx m, hf a t, List.append_nil]
  | error stop t => rw [Traced.deeds_bind_of_error f hexec, hx m]

theorem Still.deedless {x : Run α} (hx : Still x) : Deedless x := by
  intro m
  rw [Traced.deeds, (hx m).1, List.filterMap_nil]

/-- Computing with values does nothing but look at the state and change it. -/
theorem closed_deedless : Closed @Deedless where
  pure _ _ := rfl
  bind := Deedless.bind
  stop _ _ _ := rfl
  observe _ hf := still_get.deedless.bind fun m => hf m fun _ _ _ => rfl
  alloc _ _ := rfl
  put _ _ _ := rfl
  beside _ _ _ _ := rfl

end Deedless

/-- Where the operands of a place have values, only the name of a variable is looked up to find the
place. -/
theorem deeds_placeAt_bind {α : Type} {f : Place → Run α} (hf : ∀ found, Deedless (f found))
    (m : Machine) : ∀ (L : Expr) (vs : List Value), (L.placeAt vs >>= f).deeds m = L.uses
  | .parens e, vs => deeds_placeAt_bind hf m e vs
  | .identifier leaf, vs => by
    have hrest : Deedless (variablePlace leaf.token >>= f) :=
      (still_variablePlace leaf.token).deedless.bind hf
    have hnote := Traced.deeds_bind_of_ok (fun _ => variablePlace leaf.token >>= f)
      (Traced.exec_note (.use leaf) m)
    rw [hrest m, List.append_nil] at hnote
    exact hnote
  | .index base _, [v, n] => (closed_deedless.element base.pos v n).bind hf m
  | .unary .deref e, [v] => (closed_deedless.target e.pos v).bind hf m
  | .member e field, [v] => (closed_deedless.member e.pos field.token v).bind hf m
  | .arrow e field, [v] => (closed_deedless.arrow e.pos field.token v).bind hf m
  | .index .., [] | .index .., [_] | .index .., _ :: _ :: _ :: _ => rfl
  | .unary .deref _, [] | .unary .deref _, _ :: _ :: _ => rfl
  | .member .., [] | .member .., _ :: _ :: _ | .arrow .., [] | .arrow .., _ :: _ :: _ => rfl
  | .unary .negate _, _ | .unary .plus _, _ | .unary .not _, _ | .unary .complement _, _
  | .unary .address _, _ | .literal .., _ | .step .., _ | .binary .., _ | .assign .., _
  | .conditional .., _ | .call .., _ | .sizeOf .., _ | .cast .., _ | .list .., _ => rfl

/-! ## Compound and plain assignments -/

theorem still_arith (op : ArithOp) (left right : Value) (pos : Position) :
    Still (arith op left right pos) := by
  refine (still_liftAt (some pos) _).bind fun operands => ?_
  split
  · exact still_stop .tooLarge
  · exact still_liftAt none (operands.eval op)

/-- Where the right side and the place on the left leave the state as it is, a compound assignment
does what the plain assignment of the computed value does. The plain one finds the place twice and
reads it before the right side is evaluated, the compound one finds it once and afterwards. -/
theorem exec_assign_some_eq_assign_none {v : Value} (op : ArithOp) (hL : L.isPlace)
    (he : (eval ctx e).exec m = .ok v m)
    (hplace : ∀ found m', (place ctx none L).exec m = .ok found m' → m' = m) :
    (eval ctx (.assign (some op) L e)).exec m =
      (eval ctx (.assign none L (.binary (.arith op) L e))).exec m := by
  have hcompound : (eval ctx (.assign (some op) L e)).exec m =
      (place ctx none L >>= fun found => update op found v L.pos).exec m := by
    rw [eval, Traced.exec_bind_of_ok _ he]
  have hplain : (eval ctx (.assign none L (.binary (.arith op) L e))).exec m =
      (place ctx none L >>= fun found => found.read >>= fun l => eval ctx e >>= fun r =>
        arith op l r L.pos >>= fun w => place ctx (some w) L >>= fun found' =>
          found'.assign w (some L.pos)).exec m := by
    rw [eval, eval, eval_eq_read L hL]
    simp only [bind_assoc]
  rw [hcompound, hplain]
  refine Traced.exec_bind_congr rfl fun found m' hfound => ?_
  obtain rfl := hplace found m' hfound
  rw [update]
  refine Traced.exec_bind_congr rfl fun l m₁ hl => ?_
  obtain rfl := (still_read found).eq_of_ok hl
  rw [Traced.exec_bind_of_ok _ he]
  refine Traced.exec_bind_congr rfl fun w m₂ hw => ?_
  obtain rfl := (still_arith op l v L.pos).eq_of_ok hw
  rw [Traced.exec_bind_of_ok _ (exec_place_of_none (some w) L hfound)]

theorem exec_mapError_congr {α : Type} {x y : Run α} (g : Stop → Stop) (h : x.exec m = y.exec m) :
    (x.mapError g).exec m = (y.mapError g).exec m := by
  simp only [Traced.mapError, h]

/-- Two assignments to the same place that are evaluated alike are executed alike, also where they
stop. -/
theorem exec_instr_assign_congr {op op' : Option ArithOp} {e' : Expr}
    (h : (eval ctx (.assign op L e)).exec m = (eval ctx (.assign op' L e')).exec m) :
    (instr ctx (.expr (.assign op L e))).exec m =
      (instr ctx (.expr (.assign op' L e'))).exec m := by
  have hbare : (bareInstr ctx (.expr (.assign op L e))).exec m =
      (bareInstr ctx (.expr (.assign op' L e'))).exec m :=
    Traced.exec_bind_congr h fun _ _ _ => rfl
  exact exec_mapError_congr (Stop.locate (some L.pos)) hbare

/-- Compound assignments, increments and decrements. Where the right side has a value, and neither
it nor the place on the left changes the state, `L op= e` and `L = L op e` have the same result, or
stop for the same reason at the same place, and end in the same state with the same output; so they
do as instructions. For all sides, `L op= e` evaluates the right side and the operands of the place
once, one after another, as an increment or decrement does with the operands of its place; and
nothing is evaluated after that, since what is done then depends on the values only and looks up no
name but that of the place. -/
theorem compound_assignment (ctx : Context) (L e : Expr) (op : ArithOp) (sign : StepOp) :
    (∀ m v, L.isPlace → (eval ctx e).exec m = .ok v m →
      (∀ found m', (place ctx none L).exec m = .ok found m' → m' = m) →
      (eval ctx (.assign (some op) L e)).exec m =
        (eval ctx (.assign none L (.binary (.arith op) L e))).exec m ∧
      (instr ctx (.expr (.assign (some op) L e))).exec m =
        (instr ctx (.expr (.assign none L (.binary (.arith op) L e)))).exec m) ∧
    (eval ctx (.assign (some op) L e) =
      eval ctx e >>= fun v => evalAll ctx L.operands >>= fun vs =>
        L.placeAt vs >>= fun found => update op found v L.pos) ∧
    (eval ctx (.step sign L) =
      evalAll ctx L.operands >>= fun vs => L.placeAt vs >>= fun found => step sign found L.pos) ∧
    ∀ m vs v, (L.placeAt vs >>= fun found => update op found v L.pos).deeds m = L.uses ∧
      (L.placeAt vs >>= fun found => step sign found L.pos).deeds m = L.uses := by
  refine ⟨fun m v hL he hplace => ?_, eval_assign_some_eq op L e, eval_step_eq sign L,
    fun m vs v => ⟨?_, ?_⟩⟩
  · have heval := exec_assign_some_eq_assign_none op hL he hplace
    exact ⟨heval, exec_instr_assign_congr heval⟩
  · exact deeds_placeAt_bind (fun found => closed_deedless.update op found v L.pos) m L vs
  · exact deeds_placeAt_bind (fun found => closed_deedless.step sign found L.pos) m L vs

/-- A character is incremented beyond its range in both ways, and wraps around in both. -/
theorem compound_assignment_wrapping :
    let ctx : Context := ⟨fun _ => none, fun _ _ _ => throw .unfinished⟩
    let m := Machine.start.bind 1 .char (.int ⟨127, 8, true⟩)
    let c : Expr := .identifier (Program.sampleName "c" 1 1 0)
    let one := Program.sampleNumber "1" 3 6 1
    (eval ctx (.assign (some .add) c one)).exec m =
      (eval ctx (.assign none c (.binary (.arith .add) c one))).exec m ∧
    EStateM.run' (eval ctx (.assign (some .add) c one)).exec m = some (.int ⟨-128, 8, true⟩) := by
  intro ctx m c one
  have hone : one.first.value (.integer .plain true .decimal) = .int (.plain 1) := by
    decide +kernel
  have hvalue : (eval ctx one).exec m = .ok (.int (.plain 1)) m :=
    congrArg (fun v => EStateM.Result.ok v m) hone
  obtain ⟨hequal, -⟩ := compound_assignment ctx c one .add ⟨.before, true⟩
  refine ⟨(hequal m _ rfl hvalue fun found m' hfound => ?_).1, by decide +kernel⟩
  cases hfound
  rfl

end Run

end MiniC
