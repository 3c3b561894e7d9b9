import MiniC.Proofs.Linkage
import MiniC.Proofs.Ranges.Executed

set_option autoImplicit false

/-! # The integers of a run

Whatever a run holds in its buffers and struct values, and whatever its expressions have as their
values: an integer is in the range of its width and signedness, unless it is one of the few that are
made without being wrapped and has not been converted since. These are the codes of characters, the
sizes of types, numbers of printed characters, and distances of pointers. -/

namespace MiniC

namespace Program

variable (p : Program) (known : Nat → Option CType)

/-- Whether a run of the program passes through a state. -/
def Visits (m : Machine) : Prop :=
  ∃ fuel, m ∈ (Run.program known fuel p).states .start

/-- Whether an expression of the program is evaluated from a state on, so that the run passes
through all states of the evaluation. -/
structure Evaluates (fuel : Nat) (e : Expr) (m : Machine) : Prop where
  occurs : .expr e ∈ p.occurrences
  begins : p.Visits known m
  visits : ∀ moment ∈ (Run.eval ⟨known, Run.call known fuel⟩ e).trace m, p.Visits known moment.state

/-- Whether a pointer is held at some point of a run, or is the value of an expression there. -/
def Reaches (a : Pointer) : Prop :=
  (∃ m, p.Visits known m ∧ m.Holds (.pointer a)) ∨
    ∃ fuel e m t, p.Evaluates known fuel e m ∧
      (Run.eval ⟨known, Run.call known fuel⟩ e).exec m = .ok (.pointer a) t

/-- An integer that the runs of the program make without wrapping it to the range of its type. -/
inductive Stray : MachineInt → Prop
  /-- The code of a character in a quoted literal. -/
  | quoted (leaf : Leaf) (kind : LiteralKind) (code : Nat)
    (hleaf : .expr (.literal leaf kind) ∈ p.occurrences) (hcode : code ∈ leaf.token.codePoints) :
    Stray (.ofCode code)
  /-- The size of a type. -/
  | sized (name : TypeName) (m : Machine) (t : CType) (size : Nat)
    (hname : .expr (.sizeOf name) ∈ p.occurrences) (hm : p.Visits known m)
    (ht : (Run.resolve known name).exec m = .ok t m) (hsize : m.structs.size? t = some size) :
    Stray (.plain (Int.ofNat size))
  /-- A number of printed characters. -/
  | printed (m : Machine) (length : Nat) (hm : p.Visits known m)
    (hlength : length ≤ m.output.length) : Stray (.plain (Int.ofNat length))
  /-- The distance of two pointers into one buffer. -/
  | distance (a b : Pointer) (ha : p.Reaches known a) (hb : p.Reaches known b)
    (hbuffer : a.buffer = b.buffer) : Stray ⟨a.index - b.index, 64, true⟩

/-- What the runs of the program meet with. -/
def domain : Domain where
  states := p.Visits known
  uses _ _ := True
  occurs o := o ∈ p.occurrences
  targets _ := True
  ints n := n.width ≤ 64 ∧ (n.InRange ∨ p.Stray known n)
  pointers := p.Reaches known
  locations _ := True
  shown _ := True

theorem domain_admits : (p.domain known).Admits known known where
  within _ hn := ⟨hn.width_le, .inl hn.inRange⟩
  computed _ _ _ ha hb hn := by
    have hcommon := Nat.max_le.mpr ⟨Nat.max_le.mpr ⟨ha.1, hb.1⟩, (by decide : 32 ≤ 64)⟩
    exact ⟨Nat.le_trans hn.width_le hcommon, .inl hn.inRange⟩
  quoted leaf kind hleaf c hc := ⟨of_decide_eq_true rfl, .inr (.quoted leaf kind c hleaf hc)⟩
  sized name m t n hname hm ht hsize := ⟨of_decide_eq_true rfl, .inr (.sized name m t n hname hm ht hsize)⟩
  printed m n hm hn := ⟨of_decide_eq_true rfl, .inr (.printed m n hm hn)⟩
  distance a b ha hb hbuffer := ⟨Nat.le_refl 64, .inr (.distance a b ha hb hbuffer)⟩
  held m _ hm ha := .inl ⟨m, hm, ha.holds⟩
  yielded fuel e m _ t he hm hmeets hexec :=
    .inr ⟨fuel, e, m, t, ⟨he, hm, fun moment hmoment => (hmeets moment hmoment).state⟩, hexec⟩
  types _ _ := rfl
  target _ _ _ _ := trivial
  null := trivial
  buffers _ _ _ _ _ := trivial
  records _ _ _ _ := trivial
  bound _ _ _ _ _ _ _ _ _ := trivial
  kept _ _ _ _ _ := trivial
  shows _ _ := trivial
  seen _ _ _ _ _ := trivial

theorem stays_program (fuel : Nat) :
    Run.Stays (p.domain known) (Run.program known fuel p) fun _ => True :=
  Run.parallel_program (p.domain_admits known) fuel p.code_subset

theorem meets_of_mem_trace (fuel : Nat) :
    ∀ moment ∈ (Run.program known fuel p).trace .start, (p.domain known).Meets moment :=
  fun _ hmoment => ⟨⟨fuel, Traced.mem_states_of_mem_trace hmoment⟩, fun _ _ => trivial⟩

/-- All that a run holds anywhere belongs to the domain of the program. -/
theorem good_of_visits {m : Machine} (hm : p.Visits known m) : (p.domain known).Good m := by
  obtain ⟨fuel, hm⟩ := hm
  have hstart : (p.domain known).Good .start :=
    ⟨⟨fuel, Traced.mem_states_start _ _⟩, fun v hv => absurd hv.holds (Machine.not_holds_start v),
      List.forall_mem_nil _⟩
  have hparallel := p.stays_program known fuel
  have hmeets := p.meets_of_mem_trace known fuel
  rcases List.mem_append.mp hm with hm | hm
  · rcases List.mem_cons.mp hm with rfl | hm
    · exact hstart
    · obtain ⟨moment, hmoment, rfl⟩ := List.mem_map.mp hm
      exact (hparallel.fares _ hstart _ List.prefix_rfl hmeets).good moment hmoment
  · rw [List.mem_singleton.mp hm]
    exact hparallel.good_after hstart hmeets

/-- At every point of a run, an integer that is held in a slot or a field, or that an expression has
as its value, is in the range of its width and signedness, or was made without being wrapped. -/
theorem inRange_or_stray :
    (∀ m n, p.Visits known m → m.Holds (.int n) → n.InRange ∨ p.Stray known n) ∧
      ∀ fuel e m n t, p.Evaluates known fuel e m →
        (Run.eval ⟨known, Run.call known fuel⟩ e).exec m = .ok (.int n) t →
        n.InRange ∨ p.Stray known n := by
  refine ⟨fun m n hm hn => ?_, fun fuel e m n t he hexec => ?_⟩
  · exact ((p.good_of_visits known hm).held _ (hn.holdsIn fun _ => trivial)).2
  have htwins := Run.twins (p.domain_admits known) fuel
  have htogether := (Run.parallel_eval htwins e (p.whole_occurrences e he.occurs)).together m
    (p.good_of_visits known he.begins) fun moment hmoment =>
      ⟨he.visits moment hmoment, fun _ _ => trivial⟩
  exact (htogether.result (.int n) t hexec).2

/-- A run is stopped by an integer that is too large for a floating number only if there is one that
was made without being wrapped. -/
theorem exists_stray_of_tooLarge {fuel : Nat} (h : (p.run known fuel).1 = .error .tooLarge) :
    ∃ n, p.Stray known n ∧ Binary64.exceeds n.value := by
  by_contra hnone
  simp only [not_exists, not_and, Bool.not_eq_true] at hnone
  have hconvertible : (p.domain known).Convertible := fun n hn =>
    hn.2.elim (fun hrange => MachineInt.Within.exceeds_eq_false ⟨hrange, hn.1⟩) (hnone n)
  have hstart := p.good_of_visits known ⟨fuel, Traced.mem_states_start _ _⟩
  have htogether := (p.stays_program known fuel).together .start hstart
    (p.meets_of_mem_trace known fuel)
  cases hexec : (Run.program known fuel p).exec .start with
  | ok a m => simp [run, hexec] at h
  | error stop m =>
    obtain rfl : stop = .tooLarge := by simpa [run, hexec] using h
    exact htogether.notLarge hconvertible m hexec

/-- The expression `p + (p - q) + … + (p - q)`, with the given number of distances. -/
def movedAway : Nat → Expr
  | 0 => .identifier (sampleName "p" 9 63 15)
  | k + 1 => .binary (.arith .add) (movedAway k) (.parens (.binary (.arith .sub)
      (.identifier (sampleName "p" 9 68 (16 + 2 * k)))
      (.identifier (sampleName "q" 8 72 (17 + 2 * k)))))

/-- The program `int main(){int a[2]; int *q = a; int *p = a + 1; while (1) (double) ((p = p + (p - q)
+ … + (p - q)) - q);}`, in which `p` is eight times as far from `q` with every turn. -/
def growing : Program where
  items := [
    .function (sampleInt 1 0) (sampleName "main" 2 5 1) [] [
      .line [.declare ⟨⟨sampleInt 12 2, sampleName "a" 5 16 3, [.sized (sampleNumber "2" 6 18 4)],
        none⟩, []⟩],
      .line [.declare ⟨⟨⟨sampleToken .typeKeyword "int" 1 22, [sampleToken .punctuator "*" 7 26], 5⟩,
        sampleName "q" 8 27 6, [], some (.identifier (sampleName "a" 5 31 7))⟩, []⟩],
      .line [.declare ⟨⟨⟨sampleToken .typeKeyword "int" 1 34, [sampleToken .punctuator "*" 7 38], 8⟩,
        sampleName "p" 9 39 9, [], some (.binary (.arith .add)
          (.identifier (sampleName "a" 5 43 10)) (sampleNumber "1" 10 47 11))⟩, []⟩],
      .while (sampleNumber "1" 10 50 12) (.line [.expr (.cast
        ⟨sampleToken .typeKeyword "double" 11 53, [], 13⟩ (.parens (.binary (.arith .sub)
          (.parens (.assign none (.identifier (sampleName "p" 9 60 14)) (movedAway 7)))
          (.identifier (sampleName "q" 8 76 30)))))])]]

/-- An accepted program can be stopped so: the distance of two pointers is not wrapped. -/
theorem growing_tooLarge :
    growing.Accepted ∧ (growing.run (fun _ => none) 400).1 = .error .tooLarge := by
  refine ⟨?_, by decide +kernel⟩
  unfold Accepted
  cbv

end Program

/-! ## Evaluations that leave the state as it is -/

namespace Run

variable {α β : Type}

/-- A run that leaves the state as it is, at every moment. -/
def Fixed (x : Run α) : Prop :=
  ∀ m, x.after m = m ∧ ∀ moment ∈ x.trace m, moment.state = m

theorem Still.fixed {x : Run α} (hx : Still x) : Fixed x := by
  intro m
  rw [(hx m).1]
  exact ⟨(hx m).2, List.forall_mem_nil _⟩

theorem fixed_note (deed : Deed) : Fixed (Traced.note deed) :=
  fun _ => ⟨rfl, List.forall_mem_singleton.mpr rfl⟩

theorem Fixed.bind {x : Run α} {f : α → Run β} (hx : Fixed x) (hf : ∀ a, Fixed (f a)) :
    Fixed (x >>= f) := by
  intro m
  obtain ⟨hafter, htrace⟩ := hx m
  cases hexec : x.exec m with
  | ok a t =>
    rw [Traced.after_of_ok hexec] at hafter
    subst hafter
    obtain ⟨hafter', htrace'⟩ := hf a t
    rw [Traced.trace_bind_of_ok f hexec, Traced.after_bind_of_ok f hexec]
    exact ⟨hafter', List.forall_mem_append.mpr ⟨htrace, htrace'⟩⟩
  | error stop t =>
    rw [Traced.trace_bind_of_error f hexec, Traced.after_bind_of_error f hexec]
    exact ⟨hafter, htrace⟩

theorem still_liftAt (pos : Option Position) (x : Except Fault α) : Still (liftAt pos x) := by
  cases x with
  | ok a => exact still_pure a
  | error cause => exact still_stop _

theorem still_read (place : Place) : Still place.read := by
  cases place with
  | slot p => exact still_get.bind fun m => still_liftAt none _
  | field record name type =>
    refine still_get.bind fun m => ?_
    split
    · exact still_stop _
    · exact still_pure _

theorem still_variablePlace (name : Token) : Still (variablePlace name) := by
  refine still_get.bind fun m => ?_
  split
  · exact still_stop _
  · exact still_pure _

theorem still_element (pos : Position) (v i : Value) : Still (element pos v i) := by
  unfold element
  split
  · exact still_pure _
  · exact still_stop _
  · exact still_stop _

/-- The value of an element of an array that a variable has, at a place that is written down. -/
theorem fixed_eval_index (ctx : Context) (name leaf : Leaf) (kind : LiteralKind)
    (hkind : kind ≠ .string) :
    Fixed (eval ctx (.index (.identifier name) (.literal leaf kind))) := by
  have hvariable : Fixed (eval ctx (.identifier name)) := by
    rw [eval]
    refine (fixed_note _).bind fun _ => ((still_variablePlace _).bind fun place => ?_).fixed
    exact still_read place
  have hliteral : Still (eval ctx (.literal leaf kind)) := by
    rw [eval, literal]
    · exact still_pure _
    · exact hkind
  rw [eval]
  refine hvariable.bind fun b => (hliteral.bind fun i => ?_).fixed
  exact (still_element _ b i).bind still_read

end Run

/-! ## A character that is not in range -/

namespace Program

/-- The string literal of one escape for the code 255. -/
def sampleString (id column slot : Nat) : Leaf :=
  let parts := [⟨.quotes, "\"", ⟨1, column⟩⟩, ⟨.escape, "\\xff", ⟨1, column + 1⟩⟩,
    ⟨.quotes, "\"", ⟨1, column + 5⟩⟩]
  ⟨⟨⟨.literal .string, "\"\\xff\"", ⟨1, column⟩, parts⟩, id⟩, slot⟩

/-- The program `char s[2] = "\xff"; int main(){printf(s[0]); return 0;}`. -/
def unwrapped : Program where
  items := [
    .declaration ⟨⟨⟨sampleToken .typeKeyword "char" 1 1, [], 0⟩, sampleName "s" 2 6 1,
      [.sized (sampleNumber "2" 4 8 2)], some (.literal (sampleString 7 13 3) .string)⟩, []⟩,
    .function ⟨sampleToken .typeKeyword "int" 9 21, [], 4⟩ (sampleName "main" 10 25 5) [] [
      .line [.expr (.call (.identifier (sampleName "printf" 14 32 6))
        [.index (.identifier (sampleName "s" 2 39 7)) (sampleNumber "0" 15 41 8)])],
      .line [.return (some (sampleNumber "0" 15 53 9))]]]

/-- The state at the end of the run of the program. -/
def unwrappedEnd : Machine :=
  (Run.program (fun _ => none) 100 unwrapped).after .start

theorem visits_unwrappedEnd : unwrapped.Visits (fun _ => none) unwrappedEnd :=
  ⟨100, Traced.mem_states_after _ _⟩

/-- The array holds a character with the code 255. -/
theorem unwrappedEnd_holds : unwrappedEnd.Holds (.int (.ofCode 255)) := by
  have hheld : (unwrappedEnd.arena.buffer? 1).any fun values =>
      values.toList.contains (.int (.ofCode 255)) := by decide +kernel
  obtain ⟨values, hbuffer, hmem⟩ := (Option.any_eq_true _ _).mp hheld
  exact .inl ⟨1, values, hbuffer, Array.mem_toList_iff.mp (List.contains_iff_mem.mp hmem)⟩

/-- The integers of accepted programs are not always in range: the program prints 255, as a
character with a sign. -/
theorem not_inRange :
    (unwrapped.run (fun _ => none) 100).2.output = "255\n" ∧
    ¬∀ p : Program, p.Accepted → ∀ known m n, p.Visits known m → m.Holds (.int n) →
      n.InRange := by
  refine ⟨by decide +kernel, fun hall => ?_⟩
  have haccepted : unwrapped.Accepted := by
    unfold Accepted
    cbv
  have hrange := hall unwrapped haccepted _ _ _ visits_unwrappedEnd unwrappedEnd_holds
  exact absurd hrange (by decide)

/-- The element of the array that the program prints. -/
def printedElement : Expr :=
  .index (.identifier (sampleName "s" 2 39 7)) (sampleNumber "0" 15 41 8)

theorem evaluates_printedElement :
    unwrapped.Evaluates (fun _ => none) 100 printedElement unwrappedEnd where
  occurs := by
    simp [unwrapped, printedElement, occurrences, Item.occurrences,
      Stmt.occurrences.occurrencesAll, Stmt.occurrences, Instr.occurrences, Expr.occurrences,
      Expr.occurrences.occurrencesAll]
  begins := visits_unwrappedEnd
  visits moment hmoment := by
    have hfixed := Run.fixed_eval_index ⟨fun _ => none, Run.call (fun _ => none) 100⟩
      (sampleName "s" 2 39 7) ⟨sampleToken (.literal (.integer .plain true .decimal)) "0" 15 41, 8⟩
      (.integer .plain true .decimal) (by decide) unwrappedEnd
    rw [hfixed.2 moment hmoment]
    exact visits_unwrappedEnd

theorem eval_printedElement :
    ∃ t, (Run.eval ⟨fun _ => none, Run.call (fun _ => none) 100⟩ printedElement).exec
      unwrappedEnd = .ok (.int (.ofCode 255)) t :=
  Traced.exists_exec_of_run' (by decide +kernel)

/-- The character in the array is one of the integers that are not wrapped, where it is held and
where it is the value of an expression. -/
theorem inRange_or_stray_unwrapped :
    unwrapped.Visits (fun _ => none) unwrappedEnd ∧ unwrappedEnd.Holds (.int (.ofCode 255)) ∧
      unwrapped.Stray (fun _ => none) (.ofCode 255) ∧
      unwrapped.Evaluates (fun _ => none) 100 printedElement unwrappedEnd ∧
      ∃ t, (Run.eval ⟨fun _ => none, Run.call (fun _ => none) 100⟩ printedElement).exec
          unwrappedEnd = .ok (.int (.ofCode 255)) t ∧
        unwrapped.Stray (fun _ => none) (.ofCode 255) := by
  obtain ⟨hheld, hyielded⟩ := unwrapped.inRange_or_stray fun _ => none
  have hstray := (hheld _ _ visits_unwrappedEnd unwrappedEnd_holds).resolve_left (by decide)
  obtain ⟨t, hexec⟩ := eval_printedElement
  have hcases := hyielded _ _ _ _ t evaluates_printedElement hexec
  exact ⟨visits_unwrappedEnd, unwrappedEnd_holds, hstray, evaluates_printedElement, t, hexec,
    hcases.resolve_left (by decide)⟩

end Program

end MiniC
