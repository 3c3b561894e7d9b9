import MiniC.Proofs.Calls
import MiniC.Proofs.Inference.Tags

set_option autoImplicit false

/-! # Variables that get their types from their initializers

The type of a variable that is declared with `auto` is found twice: by the analysis from the
expression, and by a run from the value. Both find the same if the places that the expression reads
hold values of their types, and if each operator is used where the type that the analysis finds for
it is that of its result. Not everywhere: a conditional expression has the type of its wider branch,
but the value of the branch that is chosen is not converted. -/

namespace MiniC

/-! ## Where an expression gets its type from -/

/-- The parts of an expression that the type of its values comes from: places, calls, literals and
casts. -/
def Expr.roots : Expr → List Expr
  | .parens e => e.roots
  | .unary .address e => [e]
  | .unary .deref e => [.unary .deref e]
  | .unary .not _ => []
  | .unary .negate e => e.roots
  | .unary .plus e => e.roots
  | .unary .complement e => e.roots
  | .step _ e => [e]
  | .binary (.arith _) left right => left.roots ++ right.roots
  | .binary (.relation _) _ _ => []
  | .binary (.logic _) _ _ => []
  | .assign _ left _ => [left]
  | .conditional _ first second => first.roots ++ second.roots
  | .sizeOf _ => []
  | e => [e]

/-- Whether a place is one for values of a type, and what is read from it is tagged with the
type. -/
structure Place.Houses (m : Machine) (place : Place) (t : CType) : Prop where
  isAuto : t.isAuto = false
  type : place.type?.map CType.undeclared = some t.undeclared
  holds : ∀ v m', place.read.exec m = .ok v m' → m'.Tagged t v

/-- Whether what a call of a name runs has the type that the analysis finds for the call. -/
def Machine.Answers (m : Machine) (a : Analysis) (name : Token) : Prop :=
  match m.callee? name with
  | some (.function f) => ∃ g, a.lookup name.id = some (.function g) ∧
      g.returnType.isAuto = false ∧ f.returnType.undeclared = g.returnType.undeclared
  | some .print => a.lookup name.id = none
  | none => True

section

variable (ctx : Context) (W : Machine → Prop) (V : Analysis → Prop)

/-- Whether, in states of a run in which `W` holds, an expression denotes places for values of the
type that the analysis finds for it where `V` holds. -/
def Expr.Housed (e : Expr) : Prop :=
  ∀ m m' new place a a' t, W m → V a → (Run.place ctx new e).exec m = .ok place m' →
    (Check.exprType e).exec a = .ok t a' → place.Houses m' t

/-- Whether the values of a part that other types come from are of the type that the analysis finds
for it. -/
def Expr.Grounded : Expr → Prop
  | .literal leaf kind => ∀ a, V a → ∀ t ∈ a.annotations[leaf.slot]?, t = kind.ctype
  | .cast type _ => ctx.Founded [.type type]
  | .call callee _ => ∀ leaf, callee = .identifier leaf →
      ∀ m a, W m → V a → m.Answers a leaf.token
  | e => e.Housed ctx W V

/-- Whether the type that the analysis finds for each operator in an expression is that of the
results of the operator: a sign and a complement stand in front of integers that are wide enough,
integers on both sides of an operator are brought to the type that is found, and both branches of
a conditional expression have the same type. -/
def Expr.Settled : Expr → Prop
  | .parens e => e.Settled
  | .unary op e => op = .negate ∨ op = .plus ∨ op = .complement →
      e.Settled ∧ ∀ a a' t, V a → (Check.exprType e).exec a = .ok t a' → t.IsPromoted
  | .binary (.arith op) left right => left.Settled ∧ right.Settled ∧
      ∀ a b c a' s t u, V a → (Check.exprType left).exec a = .ok s b →
        (Check.exprType right).exec b = .ok t c →
        (Check.operatorType (.arith op) s t left.pos).exec c = .ok u a' → op.Settles s t u
  | .conditional _ first second => first.Settled ∧ second.Settled ∧
      ∀ a b c s t, V a → (Check.exprType first).exec a = .ok s b →
        (Check.exprType second).exec b = .ok t c → s.writable = t.writable
  | _ => True

end

namespace Run

open Machine (Tagged)

variable {ctx : Context} {W : Machine → Prop} {V : Analysis → Prop} {m m' : Machine}
  {a a' : Analysis} {t : CType} {v : Value}

/-! ## Places -/

/-- Whether the value of an expression is what is in the place that it denotes. -/
def IsRead (e : Expr) : Prop :=
  ∀ ctx, eval ctx e = (do (← place ctx none e).read)

theorem isRead_identifier (leaf : Leaf) : IsRead (.identifier leaf) := by
  intro ctx
  rw [eval, place, Traced.bind_assoc]

theorem isRead_deref (e : Expr) : IsRead (.unary .deref e) := by
  intro ctx
  rw [eval, place, Traced.bind_assoc]
  · rfl
  · exact nofun

theorem isRead_index (base i : Expr) : IsRead (.index base i) := by
  intro ctx
  rw [eval, place]
  simp only [Traced.bind_assoc]

theorem isRead_member (e : Expr) (field : Leaf) : IsRead (.member e field) := by
  intro ctx
  rw [eval, place, Traced.bind_assoc]

theorem isRead_arrow (e : Expr) (field : Leaf) : IsRead (.arrow e field) := by
  intro ctx
  rw [eval, place, Traced.bind_assoc]

/-- What is read from a place is tagged with the type that the analysis finds for the place. -/
theorem tagged_of_isRead {e : Expr} (he : IsRead e) (hhoused : e.Housed ctx W V) (hm : W m)
    (ha : V a) (ht : (Check.exprType e).exec a = .ok t a')
    (hv : (eval ctx e).exec m = .ok v m') : m'.Tagged t v := by
  rw [he] at hv
  obtain ⟨place, m₁, hplace, hread, -⟩ := Traced.exec_bind_eq_ok hv
  exact (hhoused m m₁ none place a a' t hm ha hplace ht).holds v m' hread

/-- What is put in a place for values of a type, after it was converted, is tagged with the type. -/
theorem tagged_of_fit {place : Place} {pos : Option Position} {w : Value}
    (htype : place.type?.map CType.undeclared = some t.undeclared) (hauto : t.isAuto = false)
    (hvoid : t.isVoid = false) (h : (place.fit v pos).exec m = .ok w m') : m'.Tagged t w := by
  obtain ⟨u, hu, heq⟩ := Option.map_eq_some_iff.mp htype
  rw [Place.fit, hu] at h
  refine (tagged_of_convert ?_ ?_ h).congr heq
  · rw [← u.isAuto_undeclared, heq, t.isAuto_undeclared, hauto]
  · rw [← u.isVoid_undeclared, heq, t.isVoid_undeclared, hvoid]

/-- A write of a value leaves the value tagged as it was. -/
theorem tagged_of_write {place : Place} {w : Value} (hw : m.Tagged t w)
    (h : (place.write v).exec m = .ok () m') : m'.Tagged t w := by
  cases w with
  | record id =>
    refine ⟨hw.1, hw.2.trans (congrArg some ?_)⟩
    cases place with
    | slot p =>
      obtain ⟨-, rfl⟩ := exec_store h
      rfl
    | field record name type =>
      cases h
      exact (Records.tag_setField ..).symm
  | _ => exact hw

/-- What a place holds after an assignment is tagged with its type. -/
theorem tagged_of_assign {place : Place} {pos : Option Position} {w : Value}
    (hplace : place.type?.map CType.undeclared = some t.undeclared) (hauto : t.isAuto = false)
    (hvoid : t.isVoid = false) (h : (place.assign v pos).exec m = .ok w m') : m'.Tagged t w := by
  rw [Place.assign] at h
  obtain ⟨u, m₁, hfit, h, -⟩ := Traced.exec_bind_eq_ok h
  obtain ⟨_, m₂, hwrite, hread, -⟩ := Traced.exec_bind_eq_ok h
  obtain ⟨rfl, rfl⟩ := read_of_write hwrite hread
  exact tagged_of_write (tagged_of_fit hplace hauto hvoid hfit) hwrite

/-- What an increment or a decrement yields is tagged with the type of its place. -/
theorem tagged_of_step {op : StepOp} {place : Place} {pos : Position} {w : Value}
    (hplace : place.Houses m t) (hvoid : t.isVoid = false) (hstruct : t.isStruct = false)
    (h : (step op place pos).exec m = .ok w m') : m'.Tagged t w := by
  rw [step] at h
  obtain ⟨old, m₁, hread, h, -⟩ := Traced.exec_bind_eq_ok h
  obtain ⟨sum, m₂, -, h, -⟩ := Traced.exec_bind_eq_ok h
  obtain ⟨new, m₃, hfit, h, -⟩ := Traced.exec_bind_eq_ok h
  obtain ⟨_, m₄, -, h, -⟩ := Traced.exec_bind_eq_ok h
  cases hfixity : op.fixity with
  | before =>
    rw [hfixity] at h
    cases h
    exact (tagged_of_fit hplace.type hplace.isAuto hvoid hfit).of_scalar hstruct
  | after =>
    rw [hfixity] at h
    cases h
    exact (hplace.holds _ m₁ hread).of_scalar hstruct

/-! ## Literals and calls -/

/-- What the analysis finds for a literal for which nothing else is written down. -/
theorem eq_of_annotate {slot : Nat} {s : CType} (hknown : ∀ u ∈ a.annotations[slot]?, u = s)
    (h : (Check.annotate slot s).exec a = .ok t a') : t = s := by
  obtain ⟨_, _, hget, h, -⟩ := Traced.exec_bind_eq_ok h
  cases hget
  cases hslot : a.annotations[slot]? with
  | some known =>
    rw [hslot] at h
    cases h
    exact hknown t hslot
  | none =>
    rw [hslot] at h
    cases h
    rfl

theorem tagged_literal {leaf : Leaf} {kind : LiteralKind}
    (hv : (literal leaf kind).exec m = .ok v m') : m'.Tagged kind.ctype v := by
  cases kind with
  | string =>
    obtain ⟨handle, _, -, hv, -⟩ := Traced.exec_bind_eq_ok hv
    cases hv
    exact ⟨rfl, rfl⟩
  | char =>
    cases hv
    exact ⟨rfl, rfl, rfl⟩
  | float =>
    cases hv
    exact ⟨rfl, nofun⟩
  | double =>
    cases hv
    exact ⟨rfl, rfl⟩
  | integer size signed radix =>
    cases hv
    cases size <;> exact ⟨rfl, rfl, (Bool.not_not signed).symm⟩

/-- The result of a call is tagged with the return type of the function. -/
theorem tagged_of_callResult {f : FunctionDef} {pos : Option Position} {signal : Signal}
    (hauto : f.returnType.isAuto = false)
    (h : (callResult f pos signal).exec m = .ok (some v) m') : m'.Tagged f.returnType v := by
  cases signal with
  | «return» value =>
    cases value with
    | none => cases h
    | some w =>
      rw [callResult] at h
      split at h
      · cases h
      · rename_i hvoid
        obtain ⟨_, m₁, hconvert, h, -⟩ := Traced.exec_bind_eq_ok h
        cases h
        exact tagged_of_convert hauto (Bool.eq_false_iff.mpr hvoid) hconvert
  | _ => cases h

theorem tagged_of_call {known : Nat → Option CType} {fuel : Nat} {f : FunctionDef}
    {args : List Value} {pos : Option Position} (hauto : f.returnType.isAuto = false)
    (h : (call known fuel f args pos).exec m = .ok (some v) m') : m'.Tagged f.returnType v := by
  cases fuel with
  | zero => cases h
  | succ fuel =>
    rw [call] at h
    split at h
    · cases h
    · obtain ⟨_, _, hget, h, -⟩ := Traced.exec_bind_eq_ok h
      dsimp only at h
      split at h
      · cases h
      · obtain ⟨signal, m₁, -, h, -⟩ := Traced.exec_bind_eq_ok h
        exact tagged_of_callResult hauto h

theorem tagged_of_print {w : Value} (h : (print w).exec m = .ok v m') : m'.Tagged .int v := by
  have hprinted : ∀ (text : String) (m₁ : Machine), (do
      modify fun m : Machine => { m with output := m.output ++ text ++ "\n" }
      return .int (.plain (Int.ofNat text.length + 1)) : Run Value).exec m₁ = .ok v m' →
        m'.Tagged .int v := by
    rintro text m₁ ⟨⟩
    exact ⟨rfl, rfl, rfl⟩
  unfold print at h
  split at h
  · obtain ⟨_, m₁, -, h, -⟩ := Traced.exec_bind_eq_ok h
    obtain ⟨codes, m₂, -, h, -⟩ := Traced.exec_bind_eq_ok h
    exact hprinted _ m₂ h
  · obtain ⟨_, m₁, -, h, -⟩ := Traced.exec_bind_eq_ok h
    exact hprinted _ m₁ h

/-- The value of a call is tagged with the type that the analysis finds for it, if that is the one
of the function that the call runs. -/
theorem tagged_of_eval_call {known : Nat → Option CType} {fuel : Nat} {leaf : Leaf}
    {args : List Expr} (hanswers : m.Answers a leaf.token)
    (ht : (Check.exprType (.call (.identifier leaf) args)).exec a = .ok t a')
    (hv : (eval ⟨known, call known fuel⟩ (.call (.identifier leaf) args)).exec m = .ok v m') :
    m'.Tagged t v := by
  rw [eval] at hv
  obtain ⟨result, m₁, hinvoke, hv, -⟩ := Traced.exec_bind_eq_ok hv
  cases result with
  | none => cases hv
  | some w =>
    cases hv
    rw [exec_invoke] at hinvoke
    rw [Check.exprType] at ht
    obtain ⟨called, a₁, hcalled, ht, -⟩ := Traced.exec_bind_eq_ok ht
    obtain ⟨_, heq, -, hcalled⟩ := Check.calledFunction_eq_ok hcalled
    cases heq
    unfold Machine.Answers at hanswers
    cases hcallee : m.callee? leaf.token with
    | none =>
      rw [hcallee] at hinvoke
      cases hinvoke
    | some callee =>
      rw [hcallee] at hinvoke hanswers
      cases callee with
      | function f =>
        obtain ⟨g, hlookup, hauto, heq⟩ := hanswers
        obtain ⟨values, m₂, -, hcall, -⟩ := Traced.exec_bind_eq_ok hinvoke
        -- The analysis found the same function: a name that it did not find would be `printf`.
        rcases hcalled with ⟨-, hnone, -⟩ | ⟨g', rfl, hlookup', -⟩
        · rw [hlookup] at hnone
          cases hnone
        · rw [hlookup] at hlookup'
          cases hlookup'
          obtain ⟨_, _, -, ht, -⟩ := Traced.exec_bind_eq_ok ht
          cases ht
          refine (tagged_of_call ?_ hcall).congr heq
          rw [← f.returnType.isAuto_undeclared, heq, g.returnType.isAuto_undeclared, hauto]
      | print =>
        obtain ⟨_, m₂, hprint, hinvoke, -⟩ := Traced.exec_bind_eq_ok hinvoke
        cases hinvoke
        rcases hcalled with ⟨rfl, -⟩ | ⟨g, -, hlookup, -⟩
        · obtain ⟨_, _, -, ht, -⟩ := Traced.exec_bind_eq_ok ht
          cases ht
          unfold printFirst at hprint
          split at hprint
          · cases hprint
          · obtain ⟨_, m₃, -, hprint, -⟩ := Traced.exec_bind_eq_ok hprint
            exact tagged_of_print hprint
        · change a.lookup leaf.token.id = none at hanswers
          rw [hanswers] at hlookup
          cases hlookup

/-! ## Operators -/

/-- A computation without effects has a result only if it is its result. -/
theorem exec_liftAt {α : Type} {pos : Option Position} {x : Except Fault α} {r : α}
    (h : (liftAt pos x).exec m = .ok r m') : x = .ok r ∧ m' = m := by
  cases x with
  | error cause => cases h
  | ok r' =>
    cases h
    exact ⟨rfl, rfl⟩

theorem exec_arith {op : ArithOp} {l r : Value} {pos : Position}
    (h : (arith op l r pos).exec m = .ok v m') :
    ∃ operands, Operands.select op l r = .ok operands ∧ operands.eval op = .ok v := by
  obtain ⟨operands, m₁, hselect, h, -⟩ := Traced.exec_bind_eq_ok h
  split at h
  · cases h
  · exact ⟨operands, (exec_liftAt hselect).1, (exec_liftAt h).1⟩

/-- What a sign computes is tagged with the type that the analysis finds, if it stands in front of
no narrow integer. -/
theorem tagged_of_sign {op : ArithOp} {s : CType} {cause : SemanticCause} {pos pos' : Position}
    {w : Value} (hop : op = .add ∨ op = .sub) (hv : s.isVoid = false → m.Tagged s v)
    (hpromoted : s.IsPromoted)
    (ht : (if s.isStruct || s.isPointer || s.isVoid then Check.failAt cause pos
      else pure s.writable : Check CType).exec a = .ok t a')
    (hw : (do arith op (← liftAt (some pos') v.zeroLike) v pos' : Run Value).exec m = .ok w m') :
    m'.Tagged t w := by
  split at ht
  · cases ht
  · rename_i hnumber
    cases ht
    simp only [Bool.or_eq_true, not_or] at hnumber
    have hv := hv (Bool.eq_false_iff.mpr hnumber.2)
    obtain ⟨k, hk⟩ := hv.exists_numberKind hnumber.1.2 hnumber.1.1
    obtain ⟨zero, m₁, hzero, hw, -⟩ := Traced.exec_bind_eq_ok hw
    obtain ⟨operands, hselect, heval⟩ := exec_arith hw
    exact Tagged.writable_iff.mpr
      (hv.sign hop hk hpromoted (exec_liftAt hzero).1 hselect heval)

/-- What a sign or a complement computes is tagged with the type that the analysis finds, if it
stands in front of no narrow integer. -/
theorem tagged_of_unary {op : UnaryOp} {s : CType} {isPlace : Bool} {pos pos' : Position}
    {w : Value} (hop : op = .negate ∨ op = .plus ∨ op = .complement)
    (hv : s.isVoid = false → m.Tagged s v) (hpromoted : s.IsPromoted)
    (ht : (Check.unaryType op isPlace s pos).exec a = .ok t a')
    (hw : (unary op v pos').exec m = .ok w m') : m'.Tagged t w := by
  rcases hop with rfl | rfl | rfl
  · exact tagged_of_sign (.inr rfl) hv hpromoted ht hw
  · exact tagged_of_sign (.inl rfl) hv hpromoted ht hw
  · simp only [Check.unaryType] at ht
    split at ht
    · rename_i hinteger
      cases ht
      have hv := hv (CType.isNumber_iff.mp (CType.isNumber_of_isInteger hinteger)).2.2.1
      obtain ⟨n, rfl⟩ := hv.exists_int hinteger
      cases hw
      exact Tagged.writable_iff.mpr (hv.complement hpromoted)
    · cases ht

theorem tagged_ofBool (m : Machine) (b : Bool) : m.Tagged .char (.ofBool b) :=
  ⟨rfl, rfl, rfl⟩

/-- What the analysis finds for an operator with one operand. -/
theorem exists_of_unary {op : UnaryOp} {e : Expr}
    (h : (Check.exprType (.unary op e)).exec a = .ok t a') :
    ∃ s a₁, (Check.exprType e).exec a = .ok s a₁ ∧
      (Check.unaryType op e.isPlace s e.pos).exec a₁ = .ok t a' := by
  rw [Check.exprType] at h
  split at h
  · cases h
  · obtain ⟨s, a₁, hs, h, -⟩ := Traced.exec_bind_eq_ok h
    exact ⟨s, a₁, hs, h⟩

/-- The pointer to a place is tagged with the type of pointers to what is in the place. -/
theorem tagged_of_address {place : Place} {s : CType}
    (hplace : place.type?.map CType.undeclared = some s.undeclared)
    (h : place.address.exec m = .ok v m') : m'.Tagged s.pointer v := by
  cases place with
  | slot p =>
    cases h
    exact ⟨rfl, hplace⟩
  | field record name type => cases h

/-- The operands of an operator with two operands are not `void`. -/
theorem isVoid_of_operatorType {op : BinaryOp} {s t u : CType} {pos : Position}
    (h : (Check.operatorType op s t pos).exec a = .ok u a') :
    s.isVoid = false ∧ t.isVoid = false := by
  unfold Check.operatorType at h
  split at h
  · cases h
  · split at h
    · cases h
    · rename_i hvoid
      simpa using hvoid

/-- Comparisons and logical operators yield truth values. -/
theorem eq_char_of_exprType (op : BinaryOp) {left right : Expr} (hop : ∀ o, op ≠ .arith o)
    (h : (Check.exprType (.binary op left right)).exec a = .ok t a') : t = .char := by
  rw [Check.exprType] at h
  obtain ⟨s, a₁, -, h, -⟩ := Traced.exec_bind_eq_ok h
  obtain ⟨u, a₂, -, h, -⟩ := Traced.exec_bind_eq_ok h
  unfold Check.operatorType at h
  split at h
  · cases h
  · split at h
    · cases h
    · cases op with
      | arith op => exact absurd rfl (hop op)
      | relation op =>
        dsimp only at h
        split at h
        · cases h
          rfl
        · cases h
      | logic op =>
        cases h
        rfl

/-- The type that the analysis finds for an assignment is that of its left side. -/
theorem exists_of_assign {op : Option ArithOp} {left right : Expr}
    (h : (Check.exprType (.assign op left right)).exec a = .ok t a') :
    ∃ a₁, (Check.exprType left).exec a = .ok t a₁ := by
  rw [Check.exprType] at h
  split at h
  · cases h
  · obtain ⟨s, a₁, hs, h, -⟩ := Traced.exec_bind_eq_ok h
    dsimp only at h
    split at h
    · cases h
    · obtain ⟨r, a₂, -, h, -⟩ := Traced.exec_bind_eq_ok h
      cases op with
      | none =>
        obtain ⟨_, _, -, h, -⟩ := Traced.exec_bind_eq_ok h
        obtain ⟨_, _, -, h, -⟩ := Traced.exec_bind_eq_ok h
        cases h
        exact ⟨a₁, hs⟩
      | some op =>
        obtain ⟨_, _, -, h, -⟩ := Traced.exec_bind_eq_ok h
        obtain ⟨_, _, -, h, -⟩ := Traced.exec_bind_eq_ok h
        cases h
        exact ⟨a₁, hs⟩

/-- The wider one of two types that are the same is the same as both. -/
theorem eq_of_widerType {cause : SemanticCause} {pos : Position} {s s' : CType}
    (hsame : s.writable = s'.writable) (h : (Check.widerType cause pos s s').exec a = .ok t a') :
    t = s.writable := by
  unfold Check.widerType at h
  split at h
  · cases h
    exact hsame.symm
  · split at h
    · cases h
      rfl
    · cases h

/-- The type that the analysis finds for a type name is what the words of the name stand for. -/
theorem typeOf_of_check_resolve {name : TypeName} (h : (Check.resolve name).exec a = .ok t a') :
    a.structs.typeOf name.words = .ok t := by
  obtain ⟨_, _, hget, h, -⟩ := Traced.exec_bind_eq_ok h
  cases hget
  split at h
  · cases h
  · rename_i s hs
    obtain ⟨_, _, -, h, -⟩ := Traced.exec_bind_eq_ok h
    cases h
    exact hs

/-! ## Expressions -/

/-- A part that other types come from denotes places for values of its type, if it denotes any. -/
theorem housed_of_grounded {e : Expr} (h : e.Grounded ctx W V) : e.Housed ctx W V := by
  cases e with
  | literal leaf kind | cast type e | call callee args =>
    intro m m' new pl a a' t _ _ hplace
    rw [place] at hplace
    · cases hplace
    all_goals exact nofun
  | _ => exact h

theorem tagged_of_eval_address {e : Expr} (hhoused : e.Housed ctx W V) (hm : W m) (ha : V a)
    (ht : (Check.exprType (.unary .address e)).exec a = .ok t a')
    (hv : (eval ctx (.unary .address e)).exec m = .ok v m') : m'.Tagged t v := by
  obtain ⟨s, a₁, hs, ht⟩ := exists_of_unary ht
  rw [eval] at hv
  obtain ⟨place, m₁, hplace, haddress, -⟩ := Traced.exec_bind_eq_ok hv
  simp only [Check.unaryType] at ht
  split at ht
  · cases ht
    exact tagged_of_address (hhoused _ _ _ _ _ _ _ hm ha hplace hs).type haddress
  · cases ht

theorem tagged_of_eval_not {e : Expr} (ht : (Check.exprType (.unary .not e)).exec a = .ok t a')
    (hv : (eval ctx (.unary .not e)).exec m = .ok v m') : m'.Tagged t v := by
  obtain ⟨s, a₁, hs, ht⟩ := exists_of_unary ht
  rw [eval] at hv
  · obtain ⟨u, m₁, -, hv, -⟩ := Traced.exec_bind_eq_ok hv
    obtain ⟨b, m₂, -, hv, -⟩ := Traced.exec_bind_eq_ok hv
    cases hv
    simp only [Check.unaryType] at ht
    split at ht
    · cases ht
    · cases ht
      exact tagged_ofBool _ _
  · exact fun h => by cases h

theorem tagged_of_eval_step {op : StepOp} {e : Expr} (hhoused : e.Housed ctx W V) (hm : W m)
    (ha : V a) (ht : (Check.exprType (.step op e)).exec a = .ok t a') (hvoid : t.isVoid = false)
    (hv : (eval ctx (.step op e)).exec m = .ok v m') : m'.Tagged t v := by
  rw [Check.exprType] at ht
  split at ht
  · cases ht
  obtain ⟨s, a₁, hs, ht, -⟩ := Traced.exec_bind_eq_ok ht
  dsimp only at ht
  split at ht
  · cases ht
  rename_i hstruct
  split at ht
  · cases ht
  cases ht
  rw [eval] at hv
  obtain ⟨place, m₁, hplace, hstep, -⟩ := Traced.exec_bind_eq_ok hv
  exact tagged_of_step (hhoused _ _ _ _ _ _ _ hm ha hplace hs) hvoid
    (Bool.eq_false_iff.mpr hstruct) hstep

/-- Comparisons and logical operators yield truth values. -/
theorem exists_ofBool_of_eval {op : BinaryOp} {left right : Expr} (hop : ∀ o, op ≠ .arith o)
    (hv : (eval ctx (.binary op left right)).exec m = .ok v m') : ∃ b, v = .ofBool b := by
  cases op with
  | arith op => exact absurd rfl (hop op)
  | relation op =>
    rw [eval] at hv
    obtain ⟨l, m₁, -, hv, -⟩ := Traced.exec_bind_eq_ok hv
    obtain ⟨r, m₂, -, hv, -⟩ := Traced.exec_bind_eq_ok hv
    obtain ⟨b, m₃, -, hv, -⟩ := Traced.exec_bind_eq_ok hv
    cases hv
    exact ⟨b, rfl⟩
  | logic op =>
    rw [eval] at hv
    obtain ⟨l, m₁, -, hv, -⟩ := Traced.exec_bind_eq_ok hv
    obtain ⟨b, m₂, -, hv, -⟩ := Traced.exec_bind_eq_ok hv
    split at hv
    · cases hv
      exact ⟨b, rfl⟩
    · obtain ⟨r, m₃, -, hv, -⟩ := Traced.exec_bind_eq_ok hv
      obtain ⟨b', m₄, -, hv, -⟩ := Traced.exec_bind_eq_ok hv
      cases hv
      exact ⟨b', rfl⟩

theorem tagged_of_eval_truth {op : BinaryOp} {left right : Expr} (hop : ∀ o, op ≠ .arith o)
    (ht : (Check.exprType (.binary op left right)).exec a = .ok t a')
    (hv : (eval ctx (.binary op left right)).exec m = .ok v m') : m'.Tagged t v := by
  obtain rfl := eq_char_of_exprType op hop ht
  obtain ⟨b, rfl⟩ := exists_ofBool_of_eval hop hv
  exact tagged_ofBool m' b

/-- The place of an assignment is found behind the evaluation of the right side, and gets a value. -/
theorem exists_of_eval_assign {op : Option ArithOp} {left right : Expr}
    (hright : Traced.Recorded (eval ctx right))
    (hW : ∀ s ∈ (eval ctx (.assign op left right)).states m, W s)
    (hv : (eval ctx (.assign op left right)).exec m = .ok v m') :
    ∃ m₁ new place m₂ w m₃, W m₁ ∧ (Run.place ctx new left).exec m₁ = .ok place m₂ ∧
      (place.assign w (some left.pos)).exec m₃ = .ok v m' := by
  cases op with
  | none =>
    rw [eval] at hv hW
    obtain ⟨w, m₁, -, -, hv, hW⟩ := hright.parts hv hW
    obtain ⟨place, m₂, hplace, hassign, -⟩ := Traced.exec_bind_eq_ok hv
    exact ⟨m₁, some w, place, m₂, w, m₂, hW m₁ (Traced.mem_states_start _ _), hplace, hassign⟩
  | some op =>
    rw [eval] at hv hW
    obtain ⟨w, m₁, -, -, hv, hW⟩ := hright.parts hv hW
    obtain ⟨place, m₂, hplace, hupdate, -⟩ := Traced.exec_bind_eq_ok hv
    obtain ⟨old, m₃, -, hupdate, -⟩ := Traced.exec_bind_eq_ok hupdate
    obtain ⟨new, m₄, -, hassign, -⟩ := Traced.exec_bind_eq_ok hupdate
    exact ⟨m₁, none, place, m₂, new, m₄, hW m₁ (Traced.mem_states_start _ _), hplace, hassign⟩

theorem tagged_of_eval_sizeOf {type : TypeName}
    (ht : (Check.exprType (.sizeOf type)).exec a = .ok t a')
    (hv : (eval ctx (.sizeOf type)).exec m = .ok v m') : m'.Tagged t v := by
  rw [eval, sizeNamed] at hv
  rw [Check.exprType] at ht
  obtain ⟨_, _, -, ht, -⟩ := Traced.exec_bind_eq_ok ht
  cases ht
  obtain ⟨_, m₁, -, hv, -⟩ := Traced.exec_bind_eq_ok hv
  obtain ⟨_, m₂, -, hv, -⟩ := Traced.exec_bind_eq_ok hv
  split at hv
  · cases hv
  · cases hv
    exact ⟨rfl, rfl, rfl⟩

theorem tagged_of_eval_cast {type : TypeName} {e : Expr} (hfounded : ctx.Founded [.type type])
    (ht : (Check.exprType (.cast type e)).exec a = .ok t a') (hvoid : t.isVoid = false)
    (hv : (eval ctx (.cast type e)).exec m = .ok v m') : m'.Tagged t v := by
  obtain ⟨src, a₁, a₂, hresolve, -, hauto, -⟩ := types_of_cast ht
  rw [eval] at hv
  obtain ⟨u, m₁, hu, hv, -⟩ := Traced.exec_bind_eq_ok hv
  obtain ⟨w, m₂, -, hv, -⟩ := Traced.exec_bind_eq_ok hv
  have heq := undeclared_eq_of_resolve hfounded (typeOf_of_check_resolve hresolve) hu
  refine (tagged_of_convert ?_ ?_ hv).congr heq
  · rw [← u.isAuto_undeclared, heq, t.isAuto_undeclared, hauto]
  · rw [← u.isVoid_undeclared, heq, t.isVoid_undeclared, hvoid]

/-- The value of an expression is tagged with the type that the analysis finds for the expression,
unless that is `void`. -/
theorem tagged_of_eval {known : Nat → Option CType} {fuel : Nat} (e : Expr)
    (hgrounded : ∀ r ∈ e.roots, r.Grounded ⟨known, call known fuel⟩ W V)
    (hsettled : e.Settled V) {m m' : Machine} {a a' : Analysis} {t : CType} {v : Value}
    (hW : ∀ s ∈ (eval ⟨known, call known fuel⟩ e).states m, W s)
    (hV : ∀ b ∈ (Check.exprType e).states a, V b)
    (ht : (Check.exprType e).exec a = .ok t a') (hvoid : t.isVoid = false)
    (hv : (eval ⟨known, call known fuel⟩ e).exec m = .ok v m') : m'.Tagged t v := by
  have hctx := composed_recorded.context known fuel
  have hm : W m := hW m (Traced.mem_states_start _ m)
  have ha : V a := hV a (Traced.mem_states_start _ a)
  cases e with
  | identifier leaf =>
    have hhoused := hgrounded _ List.mem_cons_self
    exact tagged_of_isRead (isRead_identifier leaf) hhoused hm ha ht hv
  | literal leaf kind =>
    have hknown := hgrounded _ List.mem_cons_self a ha
    rw [eval] at hv
    rw [Check.exprType] at ht
    obtain rfl := eq_of_annotate hknown ht
    exact tagged_literal hv
  | parens e =>
    rw [eval] at hv hW
    rw [Check.exprType] at ht hV
    exact tagged_of_eval e hgrounded hsettled hW hV ht hvoid hv
  | unary op e =>
    cases op with
    | deref =>
      have hhoused := hgrounded _ List.mem_cons_self
      exact tagged_of_isRead (isRead_deref e) hhoused hm ha ht hv
    | address =>
      have hhoused := housed_of_grounded (hgrounded e List.mem_cons_self)
      exact tagged_of_eval_address hhoused hm ha ht hv
    | not => exact tagged_of_eval_not ht hv
    | negate | plus | complement =>
      obtain ⟨hpart, hpromoted⟩ := hsettled (by simp)
      rw [eval] at hv hW
      · obtain ⟨w, m₁, hw, hW, hv, -⟩ := (hctx.eval e).parts hv hW
        rw [Check.exprType, if_neg (by simp)] at ht hV
        obtain ⟨s, a₁, hs, hV, ht, -⟩ := (Check.recorded_exprType e).parts ht hV
        refine tagged_of_unary (by simp) (fun hvoid => ?_) (hpromoted a a₁ s ha hs) ht hv
        exact tagged_of_eval e hgrounded hpart hW hV hs hvoid hw
      all_goals exact fun h => by cases h
  | step op e =>
    have hhoused := housed_of_grounded (hgrounded e List.mem_cons_self)
    exact tagged_of_eval_step hhoused hm ha ht hvoid hv
  | binary op left right =>
    cases op with
    | arith op =>
      obtain ⟨hsl, hsr, hsettles⟩ := hsettled
      obtain ⟨hgl, hgr⟩ := List.forall_mem_append.mp hgrounded
      rw [eval] at hv hW
      obtain ⟨l, m₁, hl, hWl, hv, hW⟩ := (hctx.eval left).parts hv hW
      obtain ⟨r, m₂, hr, hWr, hv, -⟩ := (hctx.eval right).parts hv hW
      rw [Check.exprType] at ht hV
      obtain ⟨s, a₁, hs, hVl, ht, hV⟩ := (Check.recorded_exprType left).parts ht hV
      obtain ⟨u, a₂, hu, hVr, ht, -⟩ := (Check.recorded_exprType right).parts ht hV
      obtain ⟨operands, hselect, heval⟩ := exec_arith hv
      obtain ⟨hvl, hvr⟩ := isVoid_of_operatorType ht
      have htl : m₁.Tagged s l := tagged_of_eval left hgl hsl hWl hVl hs hvl hl
      have htr : m₂.Tagged u r := tagged_of_eval right hgr hsr hWr hVr hu hvr hr
      exact htl.arith htr ht (hsettles a a₁ a₂ a' s u t ha hs hu ht) hselect heval
    | relation op | logic op => exact tagged_of_eval_truth (fun _ h => by cases h) ht hv
  | assign op left right =>
    have hhoused := housed_of_grounded (hgrounded left List.mem_cons_self)
    obtain ⟨a₁, hleft⟩ := exists_of_assign ht
    obtain ⟨m₁, new, found, m₂, w, m₃, hm₁, hplace, hassign⟩ :=
      exists_of_eval_assign (hctx.eval right) hW hv
    have hhouses := hhoused m₁ m₂ new found a a₁ t hm₁ ha hplace hleft
    exact tagged_of_assign hhouses.type hhouses.isAuto hvoid hassign
  | conditional cond first second =>
    obtain ⟨hsf, hss, hsame⟩ := hsettled
    obtain ⟨hgf, hgs⟩ := List.forall_mem_append.mp hgrounded
    rw [eval] at hv hW
    obtain ⟨c, m₁, -, -, hv, hW⟩ := (hctx.eval cond).parts hv hW
    obtain ⟨b, m₂, -, -, hv, hW⟩ := (hctx.truth c).parts hv hW
    rw [Check.exprType] at ht hV
    obtain ⟨u, a₁, -, -, ht, hV⟩ := (Check.recorded_exprType cond).parts ht hV
    obtain ⟨_, a₂, -, -, ht, hV⟩ := (Check.closed_recorded.condition u cond.pos).parts ht hV
    obtain ⟨s, a₃, hs, hVf, ht, hV⟩ := (Check.recorded_exprType first).parts ht hV
    obtain ⟨s', a₄, hs', hVs, ht, -⟩ := (Check.recorded_exprType second).parts ht hV
    have heq := hsame a₂ a₃ a₄ s s' (hVf a₂ (Traced.mem_states_start _ _)) hs hs'
    obtain rfl := eq_of_widerType heq ht
    rw [s.isVoid_writable] at hvoid
    have hvoid' : s'.isVoid = false := by rw [← s'.isVoid_writable, ← heq, s.isVoid_writable, hvoid]
    -- Only the branch that is chosen runs; that the other one has the same type is what being
    -- settled asks for.
    cases b with
    | true =>
      exact Tagged.writable_iff.mpr (tagged_of_eval first hgf hsf hW hVf hs hvoid hv)
    | false =>
      rw [heq]
      exact Tagged.writable_iff.mpr (tagged_of_eval second hgs hss hW hVs hs' hvoid' hv)
  | call callee args =>
    cases callee with
    | identifier leaf =>
      exact tagged_of_eval_call (hgrounded _ List.mem_cons_self leaf rfl m a hm ha) ht hv
    | _ =>
      rw [eval] at hv
      obtain ⟨_, m₁, hinvoke, hv, -⟩ := Traced.exec_bind_eq_ok hv
      cases hinvoke
  | index base i =>
    have hhoused := hgrounded _ List.mem_cons_self
    exact tagged_of_isRead (isRead_index base i) hhoused hm ha ht hv
  | member e field =>
    have hhoused := hgrounded _ List.mem_cons_self
    exact tagged_of_isRead (isRead_member e field) hhoused hm ha ht hv
  | arrow e field =>
    have hhoused := hgrounded _ List.mem_cons_self
    exact tagged_of_isRead (isRead_arrow e field) hhoused hm ha ht hv
  | sizeOf type => exact tagged_of_eval_sizeOf ht hv
  | cast type e => exact tagged_of_eval_cast (hgrounded _ List.mem_cons_self) ht hvoid hv
  | list head tail =>
    rw [Check.exprType] at ht
    cases ht

/-! ## Declarations -/

theorem writable_eq_longDouble (hbase : t.base = .longDouble) (hpointer : ¬t.isPointer) :
    t.writable = .ofBase .longDouble := by
  obtain ⟨isConst, base, _ | ⟨level, levels⟩⟩ := t
  · cases hbase
    rfl
  · exact absurd rfl hpointer

/-- The variable that a name means right after its declaration is the declared one. -/
theorem eq_of_declare {x y : Variable} (h : (Check.declare x).exec a = .ok () a')
    (hy : a'.lookupHere x.name.id = some (.variable y)) : y = x := by
  obtain ⟨_, _, hget, h, -⟩ := Traced.exec_bind_eq_ok h
  cases hget
  cases hhere : a.lookupHere x.name.id with
  | some e =>
    rw [hhere] at h
    cases h
  | none =>
    rw [hhere] at h
    obtain ⟨_, _, hget, h, -⟩ := Traced.exec_bind_eq_ok h
    cases hget
    cases hcurrent : a.current with
    | none =>
      rw [hcurrent] at h
      cases h
      rw [hhere] at hy
      cases hy
    | some i =>
      rw [hcurrent] at h
      cases h
      cases hscope : a.scopes[i]? with
      | none =>
        have hnone : (a.scopes.modify i (·.put x.name.id (.variable x)))[i]? = none := by
          rw [Array.getElem?_modify, if_pos rfl, hscope, Option.map_none]
        rw [Analysis.lookupHere] at hy
        dsimp only at hy
        rw [hcurrent, Option.bind_some, hnone] at hy
        cases hy
      | some scope =>
        rw [Analysis.lookupHere_put hcurrent hscope] at hy
        cases hy
        rfl

/-- A variable that is declared with `auto` gets the type that the analysis finds for its
initializer, as one that may be written. -/
theorem exists_of_check_declarator {d : Declarator} {init : Expr} {x : Variable}
    (h : (Check.declarator d).exec a = .ok () a') (hV : ∀ c ∈ (Check.declarator d).states a, V c)
    (hdims : d.dims = []) (hinit : d.init = some init)
    (htype : a.structs.typeOf d.type.words = .ok t) (hauto : t.isAuto)
    (hx : a'.lookupHere d.name.token.id = some (.variable x)) :
    ∃ s b b', (Check.exprType init).exec b = .ok s b' ∧ s.isVoid = false ∧
      (∀ c ∈ (Check.exprType init).states b, V c) ∧ init.items? = none ∧
      x = ⟨d.name, s.writable⟩ := by
  rw [Check.declarator, hinit] at h hV
  obtain ⟨declared, b, hdeclared, -, h, hV⟩ :=
    ((Check.composed_recorded d.occurrences).declaredType d (List.Subset.refl _)).parts h hV
  obtain rfl := Check.eq_of_declaredType hdeclared htype
  rw [hdims] at h hV
  change ((Check.initializedType t init) >>= _).exec b = _ at h
  change ∀ v ∈ ((Check.initializedType t init) >>= _).states b, V v at hV
  cases hlist : init.items? with
  | some items =>
    obtain ⟨u, c, hinitialized, -⟩ := Traced.exec_bind_eq_ok h
    rw [Check.initializedType, if_pos hauto, hlist] at hinitialized
    cases hinitialized
  | none =>
    have hinferred : Check.initializedType t init = (do pure (← Check.exprType init).writable) := by
      rw [Check.initializedType, if_pos hauto, hlist]
      rfl
    rw [hinferred] at h hV
    have hrecorded : Traced.Recorded (do pure (← Check.exprType init).writable) :=
      (Check.recorded_exprType init).bind fun _ => Check.closed_recorded.pure _
    obtain ⟨u, c, hinferred, hV, h, -⟩ := hrecorded.parts h hV
    obtain ⟨s, b', hs, hV, hu, -⟩ := (Check.recorded_exprType init).parts hinferred hV
    cases hu
    dsimp only at h
    split at h
    · cases h
    · rename_i hvoid
      rw [s.isVoid_writable] at hvoid
      exact ⟨s, b, _, hs, Bool.eq_false_iff.mpr hvoid, hV, rfl, eq_of_declare h hx⟩

/-- A run makes a variable that is declared with `auto` of the type of the value of its
initializer. -/
theorem exists_of_declarator {known : Nat → Option CType} {fuel : Nat} {d : Declarator}
    {init : Expr} {m m' : Machine} (h : (declarator ⟨known, call known fuel⟩ d).exec m = .ok () m')
    (hW : ∀ u ∈ (declarator ⟨known, call known fuel⟩ d).states m, W u) (hdims : d.dims = [])
    (hinit : d.init = some init) (hlist : init.items? = none)
    (hauto : ∀ t m₁, (resolve known d.type).exec m = .ok t m₁ → t.isAuto) :
    ∃ v m₁ m₂ s m₃ w m₄, (eval ⟨known, call known fuel⟩ init).exec m₁ = .ok v m₂ ∧
      (∀ u ∈ (eval ⟨known, call known fuel⟩ init).states m₁, W u) ∧
      (typeOfValue (some init.pos) v).exec m₂ = .ok s m₃ ∧ W m₄ ∧
      m' = m₄.bind d.name.token.id s w := by
  have hctx := composed_recorded.context known fuel
  rw [declarator] at h hW
  obtain ⟨t, m₁, hresolve, -, h, hW⟩ := (hctx.resolve known d.type).parts h hW
  rw [hdims, hinit] at h hW
  dsimp only at h hW
  rw [hlist] at h hW
  change (declareValue _ d t init).exec m₁ = _ at h
  change ∀ u ∈ (declareValue _ d t init).states m₁, W u at hW
  rw [declareValue] at h hW
  obtain ⟨v, m₂, hv, hWv, h, hW⟩ := (hctx.eval init).parts h hW
  dsimp only at h hW
  rw [if_pos (hauto t m₁ hresolve)] at h hW
  obtain ⟨s, m₃, hs, -, h, hW⟩ := (hctx.typeOfValue (some init.pos) v).parts h hW
  obtain ⟨w, m₄, -, -, h, hW⟩ := (hctx.convert s v (some init.pos)).parts h hW
  cases h
  exact ⟨v, m₁, m₂, s, m₃, w, m₄, hv, hWv, hs, hW m₄ (Traced.mem_states_start _ _), rfl⟩

/-- The type that a run gives to a variable that is declared with `auto` is the one that the
analysis has found for it: that of the initializer, as one that may be written. -/
theorem undeclared_eq_of_declarator {known : Nat → Option CType} {fuel : Nat} {d : Declarator}
    {init : Expr} {x : Variable} {m m' : Machine}
    (haccepted : (Check.declarator d).exec a = .ok () a') (hdims : d.dims = [])
    (hinit : d.init = some init) (htype : a.structs.typeOf d.type.words = .ok t)
    (hauto : t.isAuto) (hx : a'.lookupHere d.name.token.id = some (.variable x))
    (hlong : x.type ≠ .ofBase .longDouble)
    (hfounded : Context.Founded ⟨known, call known fuel⟩ [.type d.type])
    (hgrounded : ∀ r ∈ init.roots, r.Grounded ⟨known, call known fuel⟩
      (· ∈ (declarator ⟨known, call known fuel⟩ d).states m) (· ∈ (Check.declarator d).states a))
    (hsettled : init.Settled (· ∈ (Check.declarator d).states a)) (hm : m.Ownership)
    (hrun : (declarator ⟨known, call known fuel⟩ d).exec m = .ok () m') :
    (∃ s b b', (Check.exprType init).exec b = .ok s b' ∧ x = ⟨d.name, s.writable⟩) ∧
      ∃ y, m'.lookup d.name.token.id = some y ∧ y.type.undeclared = x.type.undeclared := by
  obtain ⟨s, b, b', hs, hvoid, hV, hlist, rfl⟩ :=
    exists_of_check_declarator haccepted (fun _ hc => hc) hdims hinit htype hauto hx
  refine ⟨⟨s, b, b', hs, rfl⟩, ?_⟩
  have hauto' : ∀ u m₁, (resolve known d.type).exec m = .ok u m₁ → u.isAuto := by
    intro u m₁ hu
    rw [← u.isAuto_undeclared, undeclared_eq_of_resolve hfounded htype hu, t.isAuto_undeclared,
      hauto]
  -- all states of the run are in order, so that the variable is found where it was made
  have howned := (((composed_orderly.context known fuel).declarator d).2 m hm).1
  obtain ⟨v, m₁, m₂, u, m₃, w, m₄, hv, hW, hu, hm₄, rfl⟩ := exists_of_declarator hrun
    (fun c hc => And.intro hc (howned c hc)) hdims hinit hlist hauto'
  have hv := tagged_of_eval init hgrounded hsettled (fun c hc => (hW c hc).1) hV hs hvoid hv
  refine ⟨_, (Machine.lookup_bind hm₄.2.nested _ u w _).trans (if_pos rfl), ?_⟩
  refine undeclared_eq_of_typeOfValue hv (fun hbase => ?_) hu
  by_contra hpointer
  exact hlong (writable_eq_longDouble hbase hpointer)

/-! ## A sum of a variable and a number -/

/-- A name denotes a place of a type if it means a variable of the type for the analysis and for the
run, and what the variable holds is tagged with the type. -/
theorem housed_identifier {leaf : Leaf} {s : CType} (hauto : s.isAuto = false)
    (hV : ∀ a, V a → (∃ x, a.lookup leaf.token.id = some (.variable ⟨x, s⟩)) ∧
      ∀ t ∈ a.annotations[leaf.slot]?, t = s)
    (hW : ∀ m, W m → ∃ b, m.lookup leaf.token.id = some b ∧ b.type.undeclared = s.undeclared ∧
      ∀ v, m.arena.load ⟨b.handle, 0, some b.type⟩ = .ok v → m.Tagged s v) :
    (Expr.identifier leaf).Housed ctx W V := by
  intro m m' new pl a a' t hm ha hplace ht
  obtain ⟨⟨x, hx⟩, hknown⟩ := hV a ha
  obtain ⟨b, hb, heq, hload⟩ := hW m hm
  have hplaceOf : placeOf? m leaf.token = some (.slot ⟨b.handle, 0, some b.type⟩) := by
    rw [placeOf?, hb, Option.map_some]
  obtain ⟨rfl, rfl⟩ : pl = .slot ⟨b.handle, 0, some b.type⟩ ∧ m' = m := by
    cases new <;>
    · rw [place] at hplace
      obtain ⟨_, _, hnote, hplace, -⟩ := Traced.exec_bind_eq_ok hplace
      cases hnote
      obtain ⟨_, _, hget, hplace, -⟩ := Traced.exec_bind_eq_ok hplace
      cases hget
      rw [hplaceOf] at hplace
      cases hplace
      exact ⟨rfl, rfl⟩
  obtain rfl : t = s := by
    rw [Check.exprType] at ht
    obtain ⟨_, _, hget, ht, -⟩ := Traced.exec_bind_eq_ok ht
    cases hget
    rw [hx] at ht
    obtain ⟨_, _, hnote, ht, -⟩ := Traced.exec_bind_eq_ok ht
    cases hnote
    exact eq_of_annotate hknown ht
  refine ⟨hauto, congrArg some heq, fun v m' hv => ?_⟩
  obtain ⟨_, _, hget, hv, -⟩ := Traced.exec_bind_eq_ok hv
  cases hget
  obtain ⟨hv, rfl⟩ := exec_liftAt hv
  exact hload v hv

end Run

namespace Program

open Run

/-- The expression `n + 2u`. -/
def addingUnsigned : Expr :=
  .binary (.arith .add) (.identifier (sampleName "n" 2 10 2))
    (.literal ⟨sampleToken (.literal (.integer .plain false .decimal)) "2u" 4 14, 3⟩
      (.integer .plain false .decimal))

/-- The declaration `auto x = n + 2u`. -/
def inferring : Declarator where
  type := ⟨sampleToken .typeKeyword "auto" 5 1, [], 0⟩
  name := sampleName "x" 6 6 1
  dims := []
  init := some addingUnsigned

/-- Where `n` is a variable of the type `int`. -/
def inferringAnalysis : Analysis where
  scopes := #[{ StaticScope.opened none .global none with
    names := [(2, .variable ⟨sampleName "n" 2 1 9, .int⟩)] }]
  current := some 0
  structs := .empty
  annotations := ∅

/-- Where `n` has the value 3. -/
def inferringMachine : Machine :=
  Machine.start.bind 2 .int (.int (.plain 3))

/-- A context without known types. -/
abbrev inferringContext : Context := ⟨fun _ => none, call (fun _ => none) 0⟩

example : EStateM.run' (eval inferringContext addingUnsigned).exec inferringMachine =
    some (.int ⟨5, 32, false⟩) := by decide +kernel

theorem housed_inferring : (Expr.identifier (sampleName "n" 2 10 2)).Housed inferringContext
    (· ∈ (declarator inferringContext inferring).states inferringMachine)
    (· ∈ (Check.declarator inferring).states inferringAnalysis) := by
  refine housed_identifier (s := .int) rfl (fun a ha => ?_) fun m hm => ?_
  · have hall : (((Check.declarator inferring).states inferringAnalysis).all fun a =>
        a.lookup 2 = some (.variable ⟨sampleName "n" 2 1 9, .int⟩) &&
          a.annotations[2]?.all (· = .int)) = true := by cbv
    have hname := List.all_eq_true.mp hall a ha
    simp only [Bool.and_eq_true, decide_eq_true_eq, Option.all_eq_true] at hname
    exact ⟨⟨_, hname.1⟩, fun t ht => hname.2 t ht⟩
  · have hall : (((declarator inferringContext inferring).states inferringMachine).all fun m =>
        m.lookup 2 = some ⟨1, .int⟩ &&
          m.arena.load ⟨1, 0, some .int⟩ = .ok (.int (.plain 3))) = true := by decide +kernel
    have hname := List.all_eq_true.mp hall m hm
    simp only [Bool.and_eq_true, decide_eq_true_eq] at hname
    refine ⟨_, hname.1, rfl, fun v hv => ?_⟩
    obtain rfl := Except.ok.inj (hname.2.symm.trans hv)
    exact ⟨rfl, rfl, rfl⟩

theorem grounded_inferring : ∀ r ∈ addingUnsigned.roots, r.Grounded inferringContext
    (· ∈ (declarator inferringContext inferring).states inferringMachine)
    (· ∈ (Check.declarator inferring).states inferringAnalysis) := by
  refine List.forall_mem_cons.mpr ⟨housed_inferring, List.forall_mem_singleton.mpr ?_⟩
  intro a ha t ht
  have hall : (((Check.declarator inferring).states inferringAnalysis).all fun a =>
      a.annotations[3]?.all (· = .ofBase (.integer .int true))) = true := by cbv
  exact of_decide_eq_true ((Option.all_eq_true _ _).mp (List.all_eq_true.mp hall a ha) t ht)

/-- The sum is computed as an integer without a sign, as its type says. -/
theorem settled_inferring :
    addingUnsigned.Settled (· ∈ (Check.declarator inferring).states inferringAnalysis) := by
  refine ⟨trivial, trivial, fun a b c a' s t u ha hs ht hu => ?_⟩
  have hall : (((Check.declarator inferring).states inferringAnalysis).all fun a =>
      match (do
        let s ← Check.exprType (.identifier (sampleName "n" 2 10 2))
        let t ← Check.exprType (.literal
          ⟨sampleToken (.literal (.integer .plain false .decimal)) "2u" 4 14, 3⟩
          (.integer .plain false .decimal))
        return (s, t, ← Check.operatorType (.arith .add) s t ⟨1, 10⟩) : Check _).exec a with
      | .ok (s, t, u) _ => ArithOp.Settles .add s t u
      | .error _ _ => true) = true := by cbv
  have hsettles := List.all_eq_true.mp hall a ha
  change (Check.operatorType (.arith .add) s t ⟨1, 10⟩).exec c = .ok u a' at hu
  rw [Traced.exec_bind_of_ok _ hs, Traced.exec_bind_of_ok _ ht, Traced.exec_bind_of_ok _ hu]
    at hsettles
  exact of_decide_eq_true hsettles

/-- The declared variable has the type `unsigned int` for the analysis and for the run. -/
theorem undeclared_eq_of_declarator_sum :
    ∃ a' m', (Check.declarator inferring).exec inferringAnalysis = .ok () a' ∧
      a'.lookupHere 6 = some (.variable ⟨inferring.name, .ofBase (.integer .int true)⟩) ∧
      (declarator inferringContext inferring).exec inferringMachine = .ok () m' ∧
      ∃ y, m'.lookup 6 = some y ∧ y.type.undeclared = .ofBase (.integer .int true) := by
  have haccepted : EStateM.run' (do
      Check.declarator inferring
      return (← get).lookupHere 6 : Check _).exec inferringAnalysis =
        some (some (.variable ⟨inferring.name, .ofBase (.integer .int true)⟩)) := by cbv
  obtain ⟨a', haccepted, hx⟩ := Traced.exists_exec_of_view haccepted
  have hrun : EStateM.run' (declarator inferringContext inferring).exec inferringMachine =
    some () := by decide +kernel
  obtain ⟨m', hrun⟩ := Traced.exists_exec_of_run' hrun
  have htype : inferringAnalysis.structs.typeOf inferring.type.words = .ok (.ofBase .auto) := by
    cbv
  have hfounded : inferringContext.Founded [.type inferring.type] := by
    rintro name t - ⟨⟩
  refine ⟨a', m', haccepted, hx, hrun, ?_⟩
  exact (undeclared_eq_of_declarator haccepted rfl rfl htype rfl hx (by decide) hfounded
    grounded_inferring settled_inferring (Machine.ownership_start.bind 2 .int _).1 hrun).2

/-! ## A conditional expression -/

/-- The declaration `auto x = 1 ? 1 : 2.0`. -/
def inferringMixed : Declarator where
  type := ⟨sampleToken .typeKeyword "auto" 3 12, [], 2⟩
  name := sampleName "x" 4 17 3
  dims := []
  init := some (.conditional (sampleNumber "1" 5 21 4) (sampleNumber "1" 5 25 5)
    (.literal ⟨sampleToken (.literal .double) "2.0" 6 29, 6⟩ .double))

/-- The program `int main(){auto x = 1 ? 1 : 2.0; printf(x / 2); return 0;}`. -/
def halvingInferred : Program where
  items := [
    .function (sampleInt 1 0) (sampleName "main" 2 5 1) [] [
      .line [.declare ⟨inferringMixed, []⟩],
      .line [.expr (.call (.identifier (sampleName "printf" 7 34 7))
        [.binary (.arith .div) (.identifier (sampleName "x" 4 41 8)) (sampleNumber "2" 8 45 9)])],
      .line [.return (some (sampleNumber "0" 9 56 10))]]]

/-- The type that a run gives to a variable is not always the one that the analysis has found: that
of `1 ? 1 : 2.0` has double precision, and its value is an integer, so that the accepted program
prints 0. -/
theorem not_undeclared_eq_of_declarator :
    halvingInferred.Accepted ∧ (halvingInferred.run (fun _ => none) 100).2.output = "0\n" ∧
    ¬∀ (ctx : Context) (d : Declarator) (a a' : Analysis) (t : CType) (x : Variable)
      (m m' : Machine), (Check.declarator d).exec a = .ok () a' → d.dims = [] → d.init.isSome →
      a.structs.typeOf d.type.words = .ok t → t.isAuto →
      a'.lookupHere d.name.token.id = some (.variable x) → m.Ownership →
      (declarator ctx d).exec m = .ok () m' →
      ∃ y, m'.lookup d.name.token.id = some y ∧ y.type.undeclared = x.type.undeclared := by
  have haccepted : halvingInferred.Accepted := by
    unfold Accepted
    cbv
  refine ⟨haccepted, by decide +kernel, fun hall => ?_⟩
  have hcheck : EStateM.run' (do
      Check.declarator inferringMixed
      return (← get).lookupHere 4 : Check _).exec inferringAnalysis =
        some (some (.variable ⟨inferringMixed.name, .ofBase .double⟩)) := by cbv
  obtain ⟨a', hcheck, hx⟩ := Traced.exists_exec_of_view hcheck
  have hrun : EStateM.run' (do
      declarator inferringContext inferringMixed
      return ((← get).lookup 4).map (·.type) : Run _).exec .start = some (some .int) := by
    decide +kernel
  obtain ⟨m', hrun, hy⟩ := Traced.exists_exec_of_view hrun
  have htype : inferringAnalysis.structs.typeOf inferringMixed.type.words =
    .ok (.ofBase .auto) := by cbv
  obtain ⟨y, hlookup, heq⟩ := hall _ _ _ _ _ _ _ _ hcheck rfl rfl htype rfl hx
    Machine.ownership_start hrun
  have hlookup : m'.lookup 4 = some y := hlookup
  rw [hlookup] at hy
  have hy : y.type = .int := Option.some.inj hy
  rw [hy] at heq
  cases heq

end Program

end MiniC
