import MiniC.Proofs.Kinds.Types

set_option autoImplicit false

/-! # The kinds of values

The value of an arithmetic expression is of the kind that the conversions say if they bring both
branches of every conditional expression in it to the same kind: the value of the branch that is
chosen is not converted. -/

namespace MiniC

/-- Whether the variables that names among occurrences mean in a state hold values of the kinds that
are given for the names. -/
def Machine.Keeps (m : Machine) (names : Leaf → Option NumberKind) (l : List Occurrence) : Prop :=
  ∀ leaf k, .expr (.identifier leaf) ∈ l → names leaf = some k →
    ∀ b v, m.lookup leaf.token.id = some b → m.arena.load ⟨b.handle, 0, some b.type⟩ = .ok v →
      v.numberKind? = some k

theorem Machine.Keeps.mono {m : Machine} {names : Leaf → Option NumberKind}
    {l l' : List Occurrence} (h : m.Keeps names l) (hl : l' ⊆ l) : m.Keeps names l' :=
  fun leaf k hleaf => h leaf k (hl hleaf)

/-- Whether the types that a run knows for type names among occurrences are those that the words of
the names stand for. -/
def Context.Founded (ctx : Context) (l : List Occurrence) : Prop :=
  ∀ name t, .type name ∈ l → ctx.known name.slot = some t →
    ∃ find?, CType.ofWords find? name.words = .ok t

theorem Context.Founded.mono {ctx : Context} {l l' : List Occurrence} (h : ctx.Founded l)
    (hl : l' ⊆ l) : ctx.Founded l' :=
  fun name t hname => h name t (hl hname)

theorem Expr.BranchesAgree.mono {names : Leaf → Option NumberKind} {e e' : Expr}
    (h : e.BranchesAgree names) (he : e'.occurrences ⊆ e.occurrences) : e'.BranchesAgree names :=
  fun cond first second hmem => h cond first second (he hmem)

namespace Run

open Traced

variable {α β : Type} {D : Deed → Prop} {m : Machine} {ctx : Context}
  {names : Leaf → Option NumberKind}

theorem yields_get_bind {f : Machine → Run α} {Q : α → Machine → Prop}
    (hf : Yields D (f m) m Q) : Yields D (get >>= f) m Q :=
  hf

theorem yields_liftAt {pos : Option Position} {x : Except Fault α} {Q : α → Machine → Prop}
    (hx : ∀ a, x = .ok a → Q a m) : Yields D (liftAt pos x) m Q := by
  cases x with
  | ok a => exact yields_pure (hx a rfl)
  | error cause => exact yields_throw

theorem yields_truth (v : Value) : Yields D (truth v) m fun _ m' => m' = m :=
  yields_liftAt fun _ _ => rfl

/-- A variable has a value of the kind that is given for its name. -/
theorem yields_variable {leaf : Leaf} {k : NumberKind} (hk : names leaf = some k)
    (hkeeps : m.Keeps names [.expr (.identifier leaf)]) :
    Yields D (eval ctx (.identifier leaf)) m fun v m' => v.numberKind? = some k ∧ m' = m := by
  rw [eval]
  refine (yields_note (Q := fun _ m' => m' = m) fun _ => rfl).bind ?_
  rintro _ m rfl
  refine Yields.bind (P := fun place m' => placeOf? m leaf.token = some place ∧ m' = m) ?_ ?_
  · refine yields_get_bind ?_
    split
    · exact yields_throw
    · rename_i place hplace
      exact yields_pure ⟨hplace, rfl⟩
  · rintro place m ⟨hplace, rfl⟩
    obtain ⟨b, hb, rfl⟩ := Option.map_eq_some_iff.mp hplace
    refine yields_get_bind (yields_liftAt fun v hv => ⟨?_, rfl⟩)
    exact hkeeps leaf k List.mem_cons_self hk b v hb hv

/-- A literal of numbers has a value of the kind of its type. -/
theorem numberKind?_value {kind : LiteralKind} {k : NumberKind} (l : Lexeme)
    (hk : kind.ctype.numberKind? = some k) : (l.value kind).numberKind? = some k := by
  cases kind with
  | string => cases hk
  | integer size signed radix => cases size <;> exact hk
  | _ => exact hk

theorem yields_arith {op : ArithOp} {l r : Value} {j k : NumberKind} {pos : Position}
    (hl : l.numberKind? = some j) (hr : r.numberKind? = some k) :
    Yields D (arith op l r pos) m fun v m' =>
      v.numberKind? = some ((BinaryOp.arith op).numberKind j k) ∧ m' = m := by
  refine (yields_liftAt (Q := fun operands m' =>
    Operands.select op l r = .ok operands ∧ m' = m) fun operands h => ⟨h, rfl⟩).bind ?_
  rintro operands _ ⟨hselect, rfl⟩
  split
  · exact yields_throw
  · exact yields_liftAt fun v hv => ⟨Operands.numberKind?_eval hl hr hselect hv, rfl⟩

theorem yields_unary {op : UnaryOp} {v : Value} {j k : NumberKind} {pos : Position}
    (hv : v.numberKind? = some j) (hk : op.numberKind? j = some k) :
    Yields D (unary op v pos) m fun w m' => w.numberKind? = some k ∧ m' = m := by
  have hsign (sign : ArithOp) (hbits : sign.isBitwise = false) : Yields D (do
      arith sign (← liftAt (some pos) v.zeroLike) v pos) m fun w m' =>
        w.numberKind? = some j ∧ m' = m := by
    refine (yields_liftAt (Q := fun zero m' => zero.numberKind? = some j ∧ m' = m)
      fun zero hzero => ⟨Value.numberKind?_zeroLike hv hzero, rfl⟩).bind ?_
    rintro zero _ ⟨hzero, rfl⟩
    refine (yields_arith hzero hv).imp ?_
    rintro w _ ⟨hw, rfl⟩
    rw [BinaryOp.numberKind, hbits, NumberKind.join_self] at hw
    exact ⟨hw, rfl⟩
  cases op with
  | negate =>
    cases hk
    exact hsign .sub rfl
  | plus =>
    cases hk
    exact hsign .add rfl
  | not =>
    cases hk
    refine (yields_truth v).bind ?_
    rintro b _ rfl
    exact yields_pure ⟨rfl, rfl⟩
  | complement =>
    cases hk
    cases v with
    | int n => exact yields_pure ⟨rfl, rfl⟩
    | _ => exact yields_throw
  | deref | address => cases hk

/-- The type that a type name stands for, where it is one of numbers. -/
theorem yields_resolve {name : TypeName} {target : CType} {k : NumberKind}
    (hname : CType.ofWords (fun _ => none) name.words = .ok target)
    (hk : target.numberKind? = some k) (hfounded : ctx.Founded [.type name]) :
    Yields D (resolve ctx.known name) m fun t m' => t = target ∧ m' = m := by
  have hwords := CType.ofWords_of_struct?_eq_none hname (CType.plain_of_numberKind? hk).2.1
  have hnamed : Yields D (typeNamed name) m fun t m' => t = target ∧ m' = m := by
    rw [typeNamed_eq_pure hwords]
    exact yields_pure ⟨rfl, rfl⟩
  unfold resolve
  split
  · exact hnamed
  · rename_i t hknown
    obtain ⟨find?, ht⟩ := hfounded name t List.mem_cons_self hknown
    rw [hwords find?] at ht
    cases ht
    split
    · exact yields_pure ⟨rfl, rfl⟩
    · exact hnamed

theorem yields_convert {t : CType} {v : Value} {k : NumberKind} {pos : Option Position}
    (ht : t.numberKind? = some k) :
    Yields D (convert t v pos) m fun w m' => w.numberKind? = some k ∧ m' = m := by
  unfold convert
  rw [(CType.plain_of_numberKind? ht).2.2.1, if_neg Bool.false_ne_true]
  split
  · exact yields_throw
  · exact yields_liftAt fun w hw => ⟨Value.numberKind?_convertScalar ht hw, rfl⟩

/-- The value of an arithmetic expression is of the kind that the conversions say, if they bring
both branches of every conditional expression in it to the same kind. -/
theorem yields_eval (e : Expr) {k : NumberKind} (hk : e.numberKind? names = some k)
    (hbranches : e.BranchesAgree names) (hkeeps : m.Keeps names e.occurrences)
    (hfounded : ctx.Founded e.occurrences) :
    Yields D (eval ctx e) m fun v m' => v.numberKind? = some k ∧ m' = m := by
  cases e with
  | identifier leaf => exact yields_variable hk hkeeps
  | literal leaf kind =>
    rw [eval, literal]
    · exact yields_pure ⟨numberKind?_value _ hk, rfl⟩
    · rintro rfl
      cases hk
  | parens e =>
    have hpart : e.occurrences ⊆ (Expr.parens e).occurrences := List.subset_cons_self _ _
    rw [eval]
    exact yields_eval e hk (hbranches.mono hpart) (hkeeps.mono hpart) (hfounded.mono hpart)
  | unary op e =>
    have hpart : e.occurrences ⊆ (Expr.unary op e).occurrences := List.subset_cons_self _ _
    obtain ⟨j, hj, hop⟩ := Option.bind_eq_some_iff.mp hk
    have haddress : op ≠ .address := by
      rintro rfl
      cases hop
    rw [eval]
    · refine (yields_eval e hj (hbranches.mono hpart) (hkeeps.mono hpart)
        (hfounded.mono hpart)).bind ?_
      rintro v _ ⟨hv, rfl⟩
      exact yields_unary hv hop
    · exact haddress
  | binary op left right =>
    have hparts : left.occurrences ++ right.occurrences ⊆ (Expr.binary op left right).occurrences :=
      List.subset_cons_self _ _
    obtain ⟨hpl, hpr⟩ := List.append_subset.mp hparts
    obtain ⟨i, hi, hk⟩ := Option.bind_eq_some_iff.mp hk
    obtain ⟨j, hj, hk⟩ := Option.bind_eq_some_iff.mp hk
    cases hk
    have hleft : Yields D (eval ctx left) m fun v m' => v.numberKind? = some i ∧ m' = m :=
      yields_eval left hi (hbranches.mono hpl) (hkeeps.mono hpl) (hfounded.mono hpl)
    have hright : Yields D (eval ctx right) m fun v m' => v.numberKind? = some j ∧ m' = m :=
      yields_eval right hj (hbranches.mono hpr) (hkeeps.mono hpr) (hfounded.mono hpr)
    cases op with
    | arith op =>
      rw [eval]
      refine hleft.bind ?_
      rintro l _ ⟨hl, rfl⟩
      refine hright.bind ?_
      rintro r _ ⟨hr, rfl⟩
      exact yields_arith hl hr
    | relation op =>
      rw [eval]
      refine hleft.bind ?_
      rintro l _ ⟨-, rfl⟩
      refine hright.bind ?_
      rintro r m ⟨-, rfl⟩
      refine (yields_liftAt (Q := fun _ m' => m' = m) fun _ _ => rfl).bind ?_
      rintro b _ rfl
      exact yields_pure ⟨rfl, rfl⟩
    | logic op =>
      rw [eval]
      refine hleft.bind ?_
      rintro l _ ⟨-, rfl⟩
      refine (yields_truth l).bind ?_
      rintro b _ rfl
      split
      · exact yields_pure ⟨rfl, rfl⟩
      · refine hright.bind ?_
        rintro r _ ⟨-, rfl⟩
        refine (yields_truth r).bind ?_
        rintro b _ rfl
        exact yields_pure ⟨rfl, rfl⟩
  | conditional cond first second =>
    have hparts : cond.occurrences ++ (first.occurrences ++ second.occurrences) ⊆
        (Expr.conditional cond first second).occurrences := List.subset_cons_self _ _
    obtain ⟨hpc, hpb⟩ := List.append_subset.mp hparts
    obtain ⟨hpf, hps⟩ := List.append_subset.mp hpb
    have hsame := hbranches cond first second List.mem_cons_self
    obtain ⟨h, hh, hk⟩ := Option.bind_eq_some_iff.mp hk
    obtain ⟨i, hi, hk⟩ := Option.bind_eq_some_iff.mp hk
    obtain ⟨j, hj, hk⟩ := Option.bind_eq_some_iff.mp hk
    cases hk
    -- The value is that of the branch taken, and nothing converts it to the type of the whole.
    obtain rfl : i = j := by
      rw [hi, hj] at hsame
      exact Option.some.inj hsame
    have hcond : Yields D (eval ctx cond) m fun v m' => v.numberKind? = some h ∧ m' = m :=
      yields_eval cond hh (hbranches.mono hpc) (hkeeps.mono hpc) (hfounded.mono hpc)
    have hfirst : Yields D (eval ctx first) m fun v m' => v.numberKind? = some i ∧ m' = m :=
      yields_eval first hi (hbranches.mono hpf) (hkeeps.mono hpf) (hfounded.mono hpf)
    have hsecond : Yields D (eval ctx second) m fun v m' => v.numberKind? = some i ∧ m' = m :=
      yields_eval second hj (hbranches.mono hps) (hkeeps.mono hps) (hfounded.mono hps)
    rw [NumberKind.join_self, eval]
    refine hcond.bind ?_
    rintro u _ ⟨-, rfl⟩
    refine (yields_truth u).bind ?_
    rintro b _ rfl
    split
    · exact hfirst
    · exact hsecond
  | cast type e =>
    have hparts : .type type :: e.occurrences ⊆ (Expr.cast type e).occurrences :=
      List.subset_cons_self _ _
    obtain ⟨htype, hpe⟩ := List.cons_subset.mp hparts
    obtain ⟨j, hj, hk⟩ := Option.bind_eq_some_iff.mp hk
    obtain ⟨target, htarget, hk⟩ := Option.bind_eq_some_iff.mp hk
    have hftype : ctx.Founded [.type type] :=
      hfounded.mono (List.cons_subset.mpr ⟨htype, List.nil_subset _⟩)
    have hvalue : Yields D (eval ctx e) m fun v m' => v.numberKind? = some j ∧ m' = m :=
      yields_eval e hj (hbranches.mono hpe) (hkeeps.mono hpe) (hfounded.mono hpe)
    rw [eval]
    refine (yields_resolve (ofWords_of_toOption htarget) hk hftype).bind ?_
    rintro _ _ ⟨rfl, rfl⟩
    refine hvalue.bind ?_
    rintro v _ ⟨-, rfl⟩
    exact yields_convert hk
  | _ => cases hk

end Run

end MiniC
