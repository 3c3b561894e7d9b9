import MiniC.Proofs.Closed
import MiniC.Proofs.Occurrences
import MiniC.Run.Stmt

set_option autoImplicit false

/-! # Places of faults

A fault of an expression or a declaration is at the place of one of its tokens, or at no known place,
unless it comes from inside a function that is called. To tell the faults of an expression from those
of the functions that it calls, the expression is evaluated a second time where these say nothing
about what goes wrong inside. -/

namespace MiniC

/-! ## Tokens -/

/-- The tokens of an occurrence that belong to none of its parts. -/
def Occurrence.tokens : Occurrence → List Token
  | .expr (.identifier leaf) => [leaf.token]
  | .expr (.literal leaf _) => [leaf.token]
  | .expr (.member _ field) => [field.token]
  | .expr (.arrow _ field) => [field.token]
  | .expr _ => []
  | .type name => name.first :: name.rest

/-- Whether all tokens of some occurrences are at certain places. -/
def PlacedAt (T : Position → Prop) (l : List Occurrence) : Prop :=
  ∀ o ∈ l, ∀ token ∈ o.tokens, T token.pos

namespace PlacedAt

variable {T : Position → Prop} {l l' : List Occurrence} {o : Occurrence}

theorem of_cons (h : PlacedAt T (o :: l)) : PlacedAt T l :=
  List.forall_mem_of_forall_mem_cons h

theorem left (h : PlacedAt T (l ++ l')) : PlacedAt T l :=
  (List.forall_mem_append.mp h).1

theorem right (h : PlacedAt T (l ++ l')) : PlacedAt T l' :=
  (List.forall_mem_append.mp h).2

theorem head (h : PlacedAt T (o :: l)) {token : Token} (htoken : token ∈ o.tokens) :
    T token.pos :=
  h o List.mem_cons_self token htoken

theorem type {name : TypeName} (h : PlacedAt T (.type name :: l)) : T name.first.pos :=
  h.head List.mem_cons_self

/-- An expression begins with one of its tokens. -/
theorem pos : ∀ {e : Expr}, PlacedAt T e.occurrences → T e.pos
  | .identifier _, h => h.head List.mem_cons_self
  | .literal _ _, h => h.head List.mem_cons_self
  | .parens e, h => pos (e := e) h.of_cons
  | .unary _ e, h => pos (e := e) h.of_cons
  | .step _ e, h => pos (e := e) h.of_cons
  | .binary _ left _, h => pos (e := left) h.of_cons.left
  | .assign _ left _, h => pos (e := left) h.of_cons.left
  | .conditional cond _ _, h => pos (e := cond) h.of_cons.left
  | .call callee _, h => pos (e := callee) h.of_cons.left
  | .index base _, h => pos (e := base) h.of_cons.left
  | .member e _, h => pos (e := e) h.of_cons
  | .arrow e _, h => pos (e := e) h.of_cons
  | .sizeOf _, h => h.of_cons.type
  | .cast _ _, h => h.of_cons.type
  | .list head _, h => pos (e := head) h.of_cons.left

end PlacedAt

namespace Run

variable {α β : Type} {T : Position → Prop}

/-! ## Steps that are no calls -/

/-- Whether the faults of a run are at certain places, if they are at known places. -/
def FaultsAt (T : Position → Prop) (x : Run α) : Prop :=
  ∀ m cause pos t, x.exec m = .error (.fault cause (some pos)) t → T pos

theorem placeless_faultsAt : Placeless (FaultsAt T) where
  pure _ := by
    rintro m cause pos t ⟨⟩
  bind {α β x f} hx hf := by
    intro m cause pos t h
    cases hexec : x.exec m with
    | ok a u =>
      rw [Traced.exec_bind_of_ok f hexec] at h
      exact hf a u cause pos t h
    | error stop u =>
      rw [Traced.exec_bind_of_error f hexec] at h
      cases h
      exact hx m cause pos _ hexec
  stopNowhere _ _ hstop := by
    rintro m cause pos t ⟨⟩
    exact absurd rfl (hstop cause pos)
  observe _ hf := fun m cause pos t h =>
    hf m (fun _ _ => by rintro _ _ _ _ ⟨⟩) m cause pos t h
  alloc _ := by
    rintro m cause pos t ⟨⟩
  put _ _ := by
    rintro m cause pos t ⟨⟩
  beside _ _ _ := by
    rintro m cause pos t ⟨⟩

theorem forall_mem_some {pos : Position} (hpos : T pos) : ∀ q ∈ some pos, T q := by
  rintro q ⟨⟩
  exact hpos

namespace FaultsAt

theorem pure (a : α) : FaultsAt T (pure a : Run α) :=
  placeless_faultsAt.pure a

theorem bind {x : Run α} {f : α → Run β} (hx : FaultsAt T x) (hf : ∀ a, FaultsAt T (f a)) :
    FaultsAt T (x >>= f) :=
  placeless_faultsAt.bind hx hf

theorem observe {f : Machine → Run α} (hf : ∀ m, FaultsAt T (f m)) : FaultsAt T (get >>= f) :=
  bind (fun _ _ _ _ h => by cases h) hf

theorem modifyGet (f : Machine → α × Machine) : FaultsAt T (modifyGet f) := by
  rintro m cause pos t ⟨⟩

theorem note (deed : Deed) : FaultsAt T (Traced.note deed) := by
  rintro m cause pos t ⟨⟩

theorem fail (cause : Fault) {pos : Option Position} (hpos : ∀ q ∈ pos, T q) :
    FaultsAt T (fail cause pos : Run α) := by
  rintro m cause q t ⟨⟩
  exact hpos q rfl

theorem failAt (cause : Fault) {pos : Position} (hpos : T pos) :
    FaultsAt T (failAt cause pos : Run α) :=
  fail cause (forall_mem_some hpos)

theorem failNowhere (cause : Fault) : FaultsAt T (Run.fail cause none : Run α) :=
  fail cause nofun

theorem liftAt {pos : Option Position} (hpos : ∀ q ∈ pos, T q) (x : Except Fault α) :
    FaultsAt T (liftAt pos x) := by
  cases x with
  | ok a => exact pure a
  | error cause => exact fail cause hpos

theorem lift (x : Except Fault α) : FaultsAt T (lift x) :=
  liftAt nofun x

end FaultsAt

theorem faultsAt_typeOfValue {pos : Option Position} (hpos : ∀ q ∈ pos, T q) (v : Value) :
    FaultsAt T (typeOfValue pos v) := by
  cases v with
  | int | float | double => exact .pure _
  | pointer p =>
    rw [typeOfValue]
    split
    · exact .fail _ hpos
    · exact .pure _
  | record id => exact .observe fun m => .lift _
  | function name => exact .fail _ hpos

theorem faultsAt_convert (t : CType) (v : Value) {pos : Option Position}
    (hpos : ∀ q ∈ pos, T q) : FaultsAt T (convert t v pos) := by
  unfold convert
  split
  · cases v with
    | record id =>
      refine .observe fun m => ?_
      split
      · exact placeless_faultsAt.copy _
      · exact .fail _ hpos
    | _ => exact .fail _ hpos
  · split
    · rintro m cause pos t ⟨⟩
    · exact .liftAt hpos _

/-! ### Places -/

theorem faultsAt_fit (place : Place) (v : Value) {pos : Option Position}
    (hpos : ∀ q ∈ pos, T q) : FaultsAt T (place.fit v pos) := by
  unfold Place.fit
  cases place.type? with
  | none => exact placeless_faultsAt.copy v
  | some t => exact faultsAt_convert t v hpos

theorem faultsAt_assign (place : Place) (v : Value) {pos : Option Position}
    (hpos : ∀ q ∈ pos, T q) : FaultsAt T (place.assign v pos) := by
  refine (faultsAt_fit place v hpos).bind fun fitted => ?_
  exact (placeless_faultsAt.write fitted place).bind fun _ => placeless_faultsAt.read place

theorem faultsAt_variablePlace {name : Token} (hpos : T name.pos) :
    FaultsAt T (variablePlace name) := by
  refine .observe fun m => ?_
  cases placeOf? m name with
  | none => exact .failAt _ hpos
  | some place => exact .pure place

theorem faultsAt_variableFor {name : Token} (hpos : T name.pos) (v : Value) :
    FaultsAt T (variableFor name v) := by
  refine .observe fun m => ?_
  cases placeOf? m name with
  | some place => exact .pure place
  | none =>
    refine (faultsAt_typeOfValue (forall_mem_some hpos) v).bind fun t => ?_
    refine (placeless_faultsAt.zeroValue t).bind fun zero => (FaultsAt.modifyGet _).bind fun _ => ?_
    exact faultsAt_variablePlace hpos

theorem faultsAt_target {pos : Position} (hpos : T pos) (v : Value) :
    FaultsAt T (target pos v) := by
  cases v with
  | pointer p => exact .pure _
  | _ => exact .failAt _ hpos

theorem faultsAt_element {pos : Position} (hpos : T pos) (v i : Value) :
    FaultsAt T (element pos v i) := by
  cases v with
  | pointer p =>
    cases i with
    | int n => exact .pure _
    | _ => exact .failAt _ hpos
  | _ => exact .failAt _ hpos

theorem faultsAt_member {pos : Position} {field : Token} (hpos : T pos) (hfield : T field.pos)
    (v : Value) : FaultsAt T (member pos field v) := by
  cases v with
  | record id =>
    refine .observe fun m => ?_
    dsimp only
    split
    · exact .failAt _ hfield
    · exact .pure _
  | _ => exact .failAt _ hpos

theorem faultsAt_arrow {pos : Position} {field : Token} (hpos : T pos) (hfield : T field.pos)
    (v : Value) : FaultsAt T (arrow pos field v) := by
  cases v with
  | pointer p => exact (placeless_faultsAt.load p).bind fun v => faultsAt_member hpos hfield v
  | _ => exact .failAt _ hpos

/-! ### Types and operators -/

theorem faultsAt_resolve (known : Nat → Option CType) {name : TypeName} (hpos : T name.first.pos) :
    FaultsAt T (resolve known name) := by
  have hnamed : FaultsAt T (typeNamed name) := by
    refine .observe fun m => ?_
    cases m.structs.typeOf name.words with
    | error e => exact .failAt _ hpos
    | ok t => exact .pure t
  unfold resolve
  split
  · exact hnamed
  · split
    · exact .pure _
    · exact hnamed

theorem faultsAt_sizeNamed (known : Nat → Option CType) {name : TypeName}
    (hpos : T name.first.pos) : FaultsAt T (sizeNamed known name) := by
  refine .observe fun m => (faultsAt_resolve known hpos).bind fun t => ?_
  cases m.structs.sizeOf t with
  | ok n => exact .pure _
  | error e => cases e <;> rintro m cause pos t ⟨⟩

theorem faultsAt_arith (op : ArithOp) (left right : Value) {pos : Position} (hpos : T pos) :
    FaultsAt T (arith op left right pos) := by
  refine (FaultsAt.liftAt (forall_mem_some hpos) _).bind fun operands => ?_
  split
  · rintro m cause pos t ⟨⟩
  · exact .lift _

theorem faultsAt_unary (op : UnaryOp) (v : Value) {pos : Position} (hpos : T pos) :
    FaultsAt T (unary op v pos) := by
  cases op with
  | negate | plus =>
    refine (FaultsAt.liftAt (forall_mem_some hpos) _).bind fun zero => ?_
    exact faultsAt_arith _ zero v hpos
  | not => exact (FaultsAt.lift _).bind fun b => .pure _
  | complement =>
    cases v with
    | int n => exact .pure _
    | _ => exact .failAt _ hpos
  | deref => exact (faultsAt_target hpos v).bind fun place => placeless_faultsAt.read place
  | address => exact .failAt _ hpos

theorem faultsAt_step (op : StepOp) (place : Place) {pos : Position} (hpos : T pos) :
    FaultsAt T (step op place pos) := by
  refine (placeless_faultsAt.read place).bind fun old => ?_
  refine (faultsAt_arith _ old _ hpos).bind fun sum => ?_
  refine (faultsAt_fit place sum (forall_mem_some hpos)).bind fun new => ?_
  refine (placeless_faultsAt.write new place).bind fun _ => ?_
  cases op.fixity <;> exact .pure _

theorem faultsAt_update (op : ArithOp) (place : Place) (v : Value) {pos : Position}
    (hpos : T pos) : FaultsAt T (update op place v pos) := by
  refine (placeless_faultsAt.read place).bind fun old => ?_
  refine (faultsAt_arith op old v hpos).bind fun new => ?_
  exact faultsAt_assign place new (forall_mem_some hpos)

theorem faultsAt_literal (leaf : Leaf) (kind : LiteralKind) : FaultsAt T (literal leaf kind) := by
  cases kind with
  | string =>
    refine FaultsAt.bind (.observe fun m => ?_) fun _ => .pure _
    cases m.strings.lookup leaf.slot with
    | none => exact .modifyGet _
    | some handle => exact .pure handle
  | _ => exact .pure _

theorem faultsAt_fillString (array : Pointer) (size : Nat) {token : Token} (hpos : T token.pos) :
    FaultsAt T (fillString array size token) := by
  unfold fillString
  split
  · exact .failAt _ hpos
  · exact placeless_faultsAt.storeAll array _

theorem faultsAt_introduce (name : Leaf) (t : CType) (v : Value) :
    FaultsAt T (introduce name t v) :=
  (FaultsAt.modifyGet _).bind fun _ => .note _

/-- The result of a call whose body did not end with a jump has its faults where the call is. -/
theorem faultsAt_callResult (f : FunctionDef) {pos : Option Position} (hpos : ∀ q ∈ pos, T q)
    {signal : Signal} (hsignal : ∀ label, signal ≠ .goto label) :
    FaultsAt T (callResult f pos signal) := by
  cases signal with
  | normal => exact .pure _
  | «break» | «continue» => exact .fail _ hpos
  | «return» v =>
    cases v with
    | none => exact .pure _
    | some v =>
      rw [callResult]
      split
      · exact .pure _
      · exact (faultsAt_convert _ v hpos).bind fun v => .pure _
  | goto label => exact absurd rfl (hsignal label)

end Run

end MiniC
