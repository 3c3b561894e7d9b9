import Mathlib.Order.Lattice
import MiniC.Proofs.Shapes.Forms

set_option autoImplicit false

/-! # Trees in the order of precedence

The binary operators have four levels; looser than all of them are conditional expressions, and
looser than these are assignments. A tree is ordered if no operand in it is looser than its place
allows without parentheses. In an ordered tree, the operators of one level are nested to the left,
conditional expressions and assignments to the right. -/

namespace MiniC

/-- What is at the top of a tree, from the tightest to the loosest: an operand that no operator
splits, a binary operator of one of the four levels, a conditional expression, or an assignment. -/
inductive Precedence
  | operand
  | multiplicative
  | additive
  | shift
  | flat
  | conditional
  | assignment
deriving DecidableEq, Repr

namespace Precedence

/-- The place in the order from the tightest to the loosest. -/
def rank : Precedence → Nat
  | .operand => 0
  | .multiplicative => 1
  | .additive => 2
  | .shift => 3
  | .flat => 4
  | .conditional => 5
  | .assignment => 6

instance : LinearOrder Precedence :=
  LinearOrder.lift' rank fun p q h => by cases p <;> cases q <;> first | rfl | cases h

/-- The levels of the binary operators. -/
def levels : List Precedence := [.multiplicative, .additive, .shift, .flat]

/-- The operators at the top of trees of a precedence. -/
def operators : Precedence → List String
  | .multiplicative => ["*", "/", "%"]
  | .additive => ["+", "-"]
  | .shift => ["<<", ">>"]
  | .flat => ["==", "!=", ">", "<", ">=", "<=", "&", "^", "|", "&&", "||"]
  | .assignment => assignmentOperators
  | .operand | .conditional => []

/-- The precedence of an operator with two operands. Other words are no operators. -/
def ofOperator (op : String) : Precedence :=
  ((levels ++ [Precedence.assignment]).find? fun p => p.operators.contains op).getD .operand

theorem ofOperator_of_mem {p : Precedence} {op : String} (h : op ∈ p.operators) :
    ofOperator op = p := by
  have hall : ∀ p ∈ levels ++ [Precedence.assignment], ∀ op ∈ p.operators, ofOperator op = p := by
    decide +kernel
  cases p with
  | operand | conditional => cases h
  | _ => exact hall _ (by decide) op h

theorem mem_operators_of_ofOperator {p : Precedence} {op : String} (h : ofOperator op = p)
    (hp : p ≠ .operand) : op ∈ p.operators := by
  unfold ofOperator at h
  cases hfind : (levels ++ [Precedence.assignment]).find? fun p => p.operators.contains op with
  | none =>
    rw [hfind] at h
    exact absurd h.symm hp
  | some q =>
    rw [hfind] at h
    cases h
    simpa using List.find?_some hfind

theorem ofOperator_mem_levels {op : String} (h : op ∈ binaryOperators) :
    ofOperator op ∈ levels := by
  have hall : ∀ op ∈ binaryOperators, ofOperator op ∈ levels := by decide +kernel
  exact hall op h

theorem ofOperator_ne_conditional (op : String) : ofOperator op ≠ .conditional := fun h =>
  absurd (mem_operators_of_ofOperator h (by decide)) List.not_mem_nil

theorem operand_not_mem_levels : operand ∉ levels := by decide

theorem conditional_not_mem_levels : conditional ∉ levels := by decide

theorem assignment_not_mem_levels : assignment ∉ levels := by decide

theorem le_flat_of_lt_conditional {p : Precedence} (h : p < .conditional) : p ≤ .flat := by
  revert h
  cases p <;> decide

end Precedence

namespace Tree

/-- The precedence of what is at the top of a tree. -/
def precedence : Tree → Precedence
  | .node (.word op) _ => .ofOperator op
  | .node .ternary _ => .conditional
  | _ => .operand

theorem precedence_node_cases (label : Label) (children : List Tree) :
    (Tree.node label children).precedence = .operand ∨
      label = .ternary ∨ ∃ op, label = .word op := by
  cases label with
  | word op => exact .inr (.inr ⟨op, rfl⟩)
  | ternary => exact .inr (.inl rfl)
  | _ => exact .inl rfl

theorem exists_word_of_mem_levels {label : Label} {children : List Tree}
    (h : (Tree.node label children).precedence ∈ Precedence.levels) : ∃ op, label = .word op := by
  rcases precedence_node_cases label children with hoperand | rfl | hword
  · exact absurd (hoperand ▸ h) Precedence.operand_not_mem_levels
  · exact absurd h Precedence.conditional_not_mem_levels
  · exact hword

theorem exists_word_of_eq_assignment {label : Label} {children : List Tree}
    (h : (Tree.node label children).precedence = .assignment) : ∃ op, label = .word op := by
  rcases precedence_node_cases label children with hoperand | rfl | hword
  · cases hoperand.symm.trans h
  · cases h
  · exact hword

theorem eq_ternary_of_eq_conditional {label : Label} {children : List Tree}
    (h : (Tree.node label children).precedence = .conditional) : label = .ternary := by
  rcases precedence_node_cases label children with hoperand | hternary | ⟨op, rfl⟩
  · cases hoperand.symm.trans h
  · exact hternary
  · exact absurd h (Precedence.ofOperator_ne_conditional op)

/-- The labels of the accesses to a part of something. -/
def accessLabels : List Label := [.indexer, .member, .arrow]

/-- Whether a tree is a name or an expression in parentheses, with any number of accesses behind
it. -/
inductive IsChain : Tree → Prop
  | name {token : Token} {slot : Nat} (hname : token.isIdentifier) : IsChain (.leaf token slot)
  | parens (e : Tree) : IsChain (.node .parens [e])
  | access {label : Label} {left part : Tree} (hlabel : label ∈ accessLabels)
    (hleft : IsChain left) : IsChain (.node label [left, part])

/-- Whether a tree is something to assign to: an indirection, a name, or an access chain. -/
inductive IsTarget : Tree → Prop
  | indirection (e : Tree) : IsTarget (.node .indirection [e])
  | name {token : Token} {slot : Nat} (hname : token.isIdentifier) : IsTarget (.leaf token slot)
  | access {label : Label} {left part : Tree} (hlabel : label ∈ accessLabels)
    (hleft : IsChain left) : IsTarget (.node label [left, part])

theorem IsTarget.precedence_eq {t : Tree} (h : t.IsTarget) : t.precedence = .operand := by
  cases h with
  | indirection | name => rfl
  | access hlabel _ =>
    simp only [accessLabels, List.mem_cons, List.not_mem_nil, or_false] at hlabel
    rcases hlabel with rfl | rfl | rfl <;> rfl

/-- The labels of the operators in front of or behind their only operand. -/
def unaryLabels : List Label :=
  [.preIncrement, .preDecrement, .postIncrement, .postDecrement, .negation, .plus, .indirection,
   .logicalNot, .complement, .addressOf]

/-- Whether the operands of a node may stand there without parentheses. -/
def Fits : Label → List Tree → Prop
  | .word op, children =>
    (Precedence.ofOperator op ∈ Precedence.levels → ∃ left right, children = [left, right] ∧
      left.precedence ≤ .ofOperator op ∧ right.precedence < .ofOperator op) ∧
    (Precedence.ofOperator op = .assignment → ∃ target value, children = [target, value] ∧
      target.IsTarget)
  | .ternary, children => ∃ cond first second, children = [cond, first, second] ∧
      cond.precedence ≤ .flat ∧ second.precedence ≤ .conditional
  | .typeCast, children => ∃ type e, children = [type, e] ∧ e.precedence = .operand
  | label, children => label ∈ unaryLabels → ∃ e, children = [e] ∧ e.precedence = .operand

/-- Whether the operands of all nodes of a tree may stand there without parentheses. -/
inductive Ordered : Tree → Prop
  | empty : Ordered .empty
  | leaf (token : Token) (slot : Nat) : Ordered (.leaf token slot)
  | typeName (words : List Token) (slot : Nat) : Ordered (.typeName words slot)
  | node {label : Label} {children : List Tree} (hfits : Fits label children)
    (hchildren : ∀ t ∈ children, Ordered t) : Ordered (.node label children)
  | group {children : List Tree} (hchildren : ∀ t ∈ children, Ordered t) :
    Ordered (.group children)

/-- Whether a label stands for an operator. -/
def isOperator : Label → Bool
  | .word op => Precedence.ofOperator op ≠ .operand
  | .ternary | .typeCast => true
  | label => unaryLabels.contains label

theorem isOperator_of_mem_accessLabels {label : Label} (h : label ∈ accessLabels) :
    isOperator label = false := by
  revert label
  decide

theorem fits_of_not_isOperator {label : Label} (h : isOperator label = false)
    (children : List Tree) : Fits label children := by
  cases label with
  | word op =>
    have hop : Precedence.ofOperator op = .operand := by simpa [isOperator] using h
    rw [Fits, hop]
    exact ⟨fun hlevel => absurd hlevel Precedence.operand_not_mem_levels, nofun⟩
  | ternary | typeCast => cases h
  | _ => exact fun hlabel => absurd hlabel (by first | decide | cases h)

/-- A node that stands for no operator is ordered if its children are. -/
theorem Ordered.construct {label : Label} (h : isOperator label = false) {children : List Tree}
    (hchildren : ∀ t ∈ children, Ordered t) : Ordered (.node label children) :=
  .node (fits_of_not_isOperator h children) hchildren

/-- An operator with one operand, which no operator splits, can be an operand itself. -/
theorem fits_unary {label : Label} {e : Tree} (hlabel : label ∈ unaryLabels)
    (he : e.precedence = .operand) :
    Fits label [e] ∧ (Tree.node label [e]).precedence = .operand := by
  cases label with
  | word | ternary | typeCast => exact absurd hlabel (by simp [unaryLabels])
  | _ => exact ⟨fun _ => ⟨e, rfl, he⟩, rfl⟩

theorem fits_of_unary {label : Label} {children : List Tree} (hlabel : label ∈ unaryLabels)
    (h : Fits label children) : ∃ e, children = [e] ∧ e.precedence = .operand := by
  cases label with
  | word | ternary | typeCast => exact absurd hlabel (by simp [unaryLabels])
  | _ => exact h hlabel

theorem Ordered.of_mem_children {t child : Tree} (h : t.Ordered) (hchild : child ∈ t.children) :
    child.Ordered := by
  cases h with
  | empty | leaf | typeName => cases hchild
  | node _ hchildren | group hchildren => exact hchildren child hchild

theorem Ordered.of_below {s t : Tree} (hbelow : s.Below t) (h : t.Ordered) : s.Ordered := by
  induction hbelow with
  | refl => exact h
  | child hmem _ ih => exact ih (h.of_mem_children hmem)

theorem Ordered.fits {label : Label} {children : List Tree} (h : Ordered (.node label children)) :
    Fits label children := by
  cases h with
  | node hfits _ => exact hfits

/-! ## The numbers of the leaves -/

@[simp] theorem precedence_numberFrom (n : Nat) (t : Tree) :
    (t.numberFrom n).1.precedence = t.precedence := by
  match t with
  | .empty | .leaf _ _ | .typeName _ _ | .group _ => rfl
  | .node label _ => cases label <;> rfl

theorem IsChain.numberFrom {t : Tree} (h : t.IsChain) (n : Nat) : (t.numberFrom n).1.IsChain := by
  induction h generalizing n with
  | name hname => exact .name hname
  | parens e => exact .parens _
  | access hlabel _ ih => exact .access hlabel (ih n)

theorem IsTarget.numberFrom {t : Tree} (h : t.IsTarget) (n : Nat) :
    (t.numberFrom n).1.IsTarget := by
  cases h with
  | indirection e => exact .indirection _
  | name hname => exact .name hname
  | access hlabel hleft => exact .access hlabel (hleft.numberFrom n)

theorem Fits.numberAllFrom {label : Label} {children : List Tree} (h : Fits label children)
    (n : Nat) : Fits label (numberFrom.numberAllFrom n children).1 := by
  have hunary (hoperand : ∃ e, children = [e] ∧ e.precedence = .operand) :
      ∃ e, (numberFrom.numberAllFrom n children).1 = [e] ∧ e.precedence = .operand := by
    obtain ⟨e, rfl, he⟩ := hoperand
    exact ⟨_, rfl, by simpa using he⟩
  cases label with
  | word op =>
    refine ⟨fun hlevel => ?_, fun hassign => ?_⟩
    · obtain ⟨left, right, rfl, hleft, hright⟩ := h.1 hlevel
      exact ⟨_, _, rfl, by simpa using hleft, by simpa using hright⟩
    · obtain ⟨target, value, rfl, htarget⟩ := h.2 hassign
      exact ⟨_, _, rfl, htarget.numberFrom n⟩
  | ternary =>
    obtain ⟨cond, first, second, rfl, hcond, hsecond⟩ := h
    exact ⟨_, _, _, rfl, by simpa using hcond, by simpa using hsecond⟩
  | typeCast =>
    obtain ⟨type, e, rfl, he⟩ := h
    exact ⟨_, _, rfl, by simpa using he⟩
  | _ => exact fun hlabel => hunary (h hlabel)

theorem Ordered.numberFrom {t : Tree} (h : t.Ordered) (n : Nat) : (t.numberFrom n).1.Ordered := by
  induction h generalizing n with
  | empty => exact .empty
  | leaf token => exact .leaf token n
  | typeName words => exact .typeName words n
  | node hfits _ ih => exact .node (hfits.numberAllFrom n) (forall_mem_numberAllFrom ih n)
  | group hchildren => exact .group hchildren

/-! ## Chains of operators -/

/-- Operands with operators between them, nested to the left. -/
def leftChain (first : Tree) (rest : List (String × Tree)) : Tree :=
  rest.foldl (fun left piece => .node (.word piece.1) [left, piece.2]) first

/-- A value behind assignments, nested to the right. -/
def assignmentChain (assigned : List (Tree × String)) (value : Tree) : Tree :=
  assigned.foldr (fun piece value => .node (.word piece.2) [piece.1, value]) value

/-- An expression behind conditions that each have an answer, nested to the right. -/
def conditionalChain (cases : List (Tree × Tree)) (last : Tree) : Tree :=
  cases.foldr (fun piece last => .node .ternary [piece.1, piece.2, last]) last

/-- The operators of one level are nested to the left, all of them between operands that are
tighter. -/
theorem Ordered.exists_leftChain {t : Tree} (h : t.Ordered)
    (hlevel : t.precedence ∈ Precedence.levels) :
    ∃ first rest, rest ≠ [] ∧ t = leftChain first rest ∧ first.precedence < t.precedence ∧
      ∀ piece ∈ rest, .ofOperator piece.1 = t.precedence ∧ piece.2.precedence < t.precedence := by
  induction h with
  | empty | leaf | typeName | group => exact absurd hlevel Precedence.operand_not_mem_levels
  | @node label children hfits _ ih =>
    obtain ⟨op, rfl⟩ := exists_word_of_mem_levels hlevel
    obtain ⟨left, right, rfl, hleft, hright⟩ := hfits.1 hlevel
    rcases lt_or_eq_of_le hleft with hlt | heq
    · exact ⟨left, [(op, right)], List.cons_ne_nil _ _, rfl, hlt, by simpa using ⟨rfl, hright⟩⟩
    · obtain ⟨first, rest, -, hchain, hfirst, hrest⟩ := ih left List.mem_cons_self (heq ▸ hlevel)
      rw [heq] at hfirst hrest
      refine ⟨first, rest ++ [(op, right)], by simp, by simp [hchain, leftChain], hfirst, ?_⟩
      intro piece hpiece
      rcases List.mem_append.mp hpiece with hpiece | hpiece
      · exact hrest piece hpiece
      · exact List.mem_singleton.mp hpiece ▸ ⟨rfl, hright⟩

/-- Assignments are nested to the right, with something to assign to in front of each. -/
theorem Ordered.exists_assignmentChain {t : Tree} (h : t.Ordered)
    (hassign : t.precedence = .assignment) :
    ∃ assigned value, assigned ≠ [] ∧ t = assignmentChain assigned value ∧
      value.precedence ≠ .assignment ∧
      ∀ piece ∈ assigned, .ofOperator piece.2 = Precedence.assignment ∧ piece.1.IsTarget := by
  induction h with
  | empty | leaf | typeName | group => cases hassign
  | @node label children hfits _ ih =>
    obtain ⟨op, rfl⟩ := exists_word_of_eq_assignment hassign
    obtain ⟨target, value, rfl, htarget⟩ := hfits.2 hassign
    by_cases hvalue : value.precedence = .assignment
    · obtain ⟨assigned, last, -, rfl, hlast, hassigned⟩ := ih value (by simp) hvalue
      exact ⟨(target, op) :: assigned, last, List.cons_ne_nil _ _, rfl, hlast,
        List.forall_mem_cons.mpr ⟨⟨hassign, htarget⟩, hassigned⟩⟩
    · exact ⟨[(target, op)], value, List.cons_ne_nil _ _, rfl, hvalue,
        List.forall_mem_cons.mpr ⟨⟨hassign, htarget⟩, nofun⟩⟩

/-- Conditional expressions are nested to the right, and no condition in front of them is one. -/
theorem Ordered.exists_conditionalChain {t : Tree} (h : t.Ordered)
    (hconditional : t.precedence = .conditional) :
    ∃ cases last, cases ≠ [] ∧ t = conditionalChain cases last ∧ last.precedence ≤ .flat ∧
      ∀ piece ∈ cases, piece.1.precedence ≤ .flat := by
  induction h with
  | empty | leaf | typeName | group => cases hconditional
  | @node label children hfits _ ih =>
    obtain rfl := eq_ternary_of_eq_conditional hconditional
    obtain ⟨cond, first, second, rfl, hcond, hsecond⟩ := hfits
    rcases lt_or_eq_of_le hsecond with hlt | heq
    · exact ⟨[(cond, first)], second, List.cons_ne_nil _ _, rfl,
        Precedence.le_flat_of_lt_conditional hlt, by simpa using hcond⟩
    · obtain ⟨cases, last, -, rfl, hlast, hcases⟩ := ih second (by simp) heq
      exact ⟨(cond, first) :: cases, last, List.cons_ne_nil _ _, rfl, hlast,
        List.forall_mem_cons.mpr ⟨hcond, hcases⟩⟩

end Tree

end MiniC
