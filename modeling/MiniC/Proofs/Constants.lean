import MiniC.Proofs.Constants.Targets
import MiniC.Proofs.Constants.Variables
import MiniC.Proofs.Containment
import MiniC.Proofs.Ranges.Executed

set_option autoImplicit false

/-! # Read-only variables keep their values

The analysis lets no read-only variable be assigned to or stepped by its name. In a program without
address operators there is no other way to its slot: no pointer leads there, since all pointers are
to buffers that are no variables, and a name that is written leads to the variable of the
declaration that the analysis means. So the slot of a read-only variable holds what it was given for
as long as it is there. The fields of a struct value that it holds are not kept: the analysis
forgets that a struct is read-only when it looks at a member of it. -/

namespace MiniC

/-- Whether an occurrence takes an address. -/
def Occurrence.isAddress : Occurrence → Bool
  | .expr (.unary .address _) => true
  | _ => false

/-- Whether a finding does not resolve a name to a variable of a declaration that may be written. -/
def Finding.respects (leaf : Leaf) : Finding → Bool
  | .meaning _ (.variable v) => v.leaf ≠ leaf || v.type.isReadOnly
  | _ => true

namespace Program

/-- Whether the variable of a declaration is read-only for the analysis, wherever it resolves a name
to it. -/
def IsConst (p : Program) (leaf : Leaf) : Prop :=
  ∀ name v, p.Resolves name (.variable v) → v.leaf = leaf → v.type.isReadOnly = true

theorem isConst_of_findings {p : Program} {leaf : Leaf}
    (h : (((Check.program p).trace .start).filterMap (·.deed)).all (·.respects leaf) = true) :
    p.IsConst leaf := by
  rintro name v ⟨moment, hmoment, hdeed⟩ hleaf
  have hrespects := List.all_eq_true.mp h _ (List.mem_filterMap.mpr ⟨moment, hmoment, hdeed⟩)
  simpa [Finding.respects, hleaf] using hrespects

/-! ## Variables that declarations make -/

section

variable {p : Program} {known : Nat → Option CType} {fuel : Nat}

/-- What is true of the moments of a run. -/
theorem course_of_run (p : Program) (known : Nat → Option CType) (fuel : Nat) :
    Machine.Course .start ((Run.program known fuel p).trace .start)
      ((Run.program known fuel p).after .start) :=
  (Run.composed_proceeds.program known fuel p).2 .start Machine.ownership_start

/-- What is true of the states of a run. -/
theorem ownership_of_run : ∀ m ∈ (Run.program known fuel p).states .start, m.Ownership :=
  ((Run.composed_orderly.program known fuel p).2 .start Machine.ownership_start).1

theorem carries_of_run : ((Run.program known fuel p).states .start).Pairwise Machine.Carries :=
  (course_of_run p known fuel).pairwise_states

/-- Whether a declaration makes a variable at a moment of a run, which is in a state then. -/
structure Introduces (p : Program) (known : Nat → Option CType) (fuel : Nat) (leaf : Leaf)
    (m : Machine) (b : Binding) : Prop extends m.HasMade leaf.token.id b where
  moment : ⟨some (.declare leaf), m⟩ ∈ (Run.program known fuel p).trace .start

/-- Every declaration makes a variable. -/
theorem exists_introduces {leaf : Leaf} {m : Machine}
    (hmoment : ⟨some (.declare leaf), m⟩ ∈ (Run.program known fuel p).trace .start) :
    ∃ b, p.Introduces known fuel leaf m b := by
  obtain ⟨b, hb, -⟩ := (course_of_run p known fuel).makes _ hmoment leaf rfl
  exact ⟨b, hb, hmoment⟩

namespace Introduces

variable {leaf leaf' : Leaf} {m m' : Machine} {b b' : Binding}

theorem state (h : p.Introduces known fuel leaf m b) :
    m ∈ (Run.program known fuel p).states .start :=
  Traced.mem_states_of_mem_trace h.moment

theorem ownership (h : p.Introduces known fuel leaf m b) : m.Ownership :=
  ownership_of_run m h.state

theorem binds (h : p.Introduces known fuel leaf m b) : m.Binds b :=
  Machine.binds_of_lookup h.lookup

/-- Declarations that make variables of the same handle are the same. -/
theorem eq_of_handle (h : p.Introduces known fuel leaf m b)
    (h' : p.Introduces known fuel leaf' m' b') (heq : b.handle = b'.handle) : leaf = leaf' :=
  (course_of_run p known fuel).eq_of_handle h.moment h'.moment rfl rfl h.toHasMade h'.toHasMade heq

/-- The latest variable of a declaration was made by it. -/
theorem of_latest {before after : List (Moment Deed Machine)}
    (htrace : (Run.program known fuel p).trace .start = before ++ after)
    (hlatest : (History.start.after before).latest leaf = some b) :
    ∃ m, p.Introduces known fuel leaf m b := by
  obtain ⟨⟨deed?, m⟩, hmoment, hdeed, hb⟩ := History.declared_of_latest hlatest
  cases hdeed
  have hmem : ⟨some (.declare leaf), m⟩ ∈ (Run.program known fuel p).trace .start := by
    rw [htrace]
    exact List.mem_append_left _ hmoment
  obtain ⟨b', hb'⟩ := exists_introduces hmem
  cases hb.symm.trans hb'.lookup
  exact ⟨m, hb'⟩

/-- As long as the scope of the variable is not left, the variable is live. -/
theorem live (h : p.Introduces known fuel leaf m b)
    {before between rest : List (Moment Deed Machine)} {later : Moment Deed Machine}
    (htrace : (Run.program known fuel p).trace .start =
      before ++ ⟨some (.declare leaf), m⟩ :: (between ++ later :: rest))
    (hopen : ∀ moment ∈ between ++ [later], m.current < moment.state.frames.size) :
    later.state.arena.Live b.handle := by
  have hretains := (course_of_run p known fuel).retains
  have hinfix : m :: (between ++ [later]).map (·.state) <:+: Machine.start ::
      ((Run.program known fuel p).trace .start).map (·.state) :=
    ⟨.start :: before.map (·.state), rest.map (·.state), by simp [htrace]⟩
  have hstates := List.IsChain.infix hretains hinfix
  have howns := Machine.owns_of_retains hstates h.owned (List.forall_mem_map.mpr hopen)
    later.state (by simp)
  have hlater : later ∈ (Run.program known fuel p).trace .start := by simp [htrace]
  exact (ownership_of_run _ (Traced.mem_states_of_mem_trace hlater)).live _ _ howns

end Introduces

end

/-! ## What is written by a name -/

section

variable {p : Program} (hnumbered : p.Numbered) (haccepted : p.Accepted) (hgotos : p.gotos = [])
  {known : Nat → Option CType} {fuel : Nat} {leaf : Leaf} (hbare : leaf ∉ p.bare)
  (hconst : p.IsConst leaf) {m : Machine} {b : Binding} (hb : p.Introduces known fuel leaf m b)

include hnumbered haccepted hgotos hbare hconst hb

/-- A name that may be written leads to no read-only variable, unless its declaration stands without
a block around it. -/
theorem lookup_of_writable {name : Leaf} {t : Machine}
    (huse : ⟨some (.use name), t⟩ ∈ (Run.program known fuel p).trace .start)
    (hname : ∀ v, p.Resolves name (.variable v) → v.type.isReadOnly = false) :
    ∃ b', t.lookup name.token.id = some b' ∧ b'.handle ≠ b.handle := by
  obtain ⟨before, after, htrace⟩ := List.append_of_mem huse
  have huses := (ensures_run hnumbered haccepted known fuel).uses
  rw [htrace] at huses
  obtain ⟨v, b', o, hresolves, hlookup, -, hlatest, -, ho⟩ :=
    huses.at_moment rfl fun h => h hgotos
  refine ⟨b', hlookup, fun heq => ?_⟩
  -- the declaration that has made the variable is the read-only one
  obtain ⟨m', hb'⟩ := Introduces.of_latest htrace hlatest
  obtain rfl := hb'.eq_of_handle hb heq
  have hwritable := hname v hresolves
  rw [hconst name v hresolves (ho.resolve_right hbare).symm] at hwritable
  cases hwritable

/-! ## Runs that leave a variable alone -/

omit hnumbered haccepted hgotos hbare hconst hb in
/-- What a run of the program meets with that leaves the buffer with a handle alone. -/
def domainBut (p : Program) (known : Nat → Option CType) (fuel handle : Nat) : Domain where
  states t := t ∈ (Run.program known fuel p).states .start
  uses name t := ⟨some (.use name), t⟩ ∈ (Run.program known fuel p).trace .start
  occurs o := o ∈ p.code
  targets name := ∀ v, p.Resolves name (.variable v) → v.type.isReadOnly = false
  ints _ := True
  pointers _ := True
  locations l := l ≠ .buffer handle
  shown _ := True

theorem domainBut_admits (hslots : (slotsOf p.occurrences).Nodup)
    (haddress : ∀ o ∈ p.occurrences, o.isAddress = false) :
    (p.domainBut known fuel b.handle).Admits known known where
  within _ _ := trivial
  computed _ _ _ _ _ _ := trivial
  quoted _ _ _ _ _ := trivial
  sized _ _ _ _ _ _ _ _ := trivial
  printed _ _ _ _ := trivial
  distance _ _ _ _ _ := trivial
  held _ _ _ _ := trivial
  yielded _ _ _ _ _ _ _ _ _ := trivial
  types _ _ := rfl
  target e he _ hleaf _ hv := by
    refine writable_of_target hnumbered hslots haccepted he ?_ hleaf hv
    rintro e' rfl
    cases haddress _ (p.code_subset he)
  null h := by
    obtain ⟨v, hv⟩ := hb.ownership.exists_value hb.binds
    rw [← Location.buffer.inj h] at hv
    cases hv
  buffers t t' ht ht' hmakes h := Machine.ne_of_makes ownership_of_run carries_of_run hb.state ht
    hb.binds ht' hmakes (Location.buffer.inj h)
  records _ _ _ _ h := by cases h
  bound name t t' b' hname huse ht' hsame hb' h := by
    obtain ⟨found, hfound, hne⟩ :=
      lookup_of_writable hnumbered haccepted hgotos hbare hconst hb huse hname
    rcases hsame with rfl | hnone
    · rw [hfound] at hb'
      cases hb'
      exact hne (Location.buffer.inj h)
    · rw [hfound] at hnone
      cases hnone
  kept t slot handle ht hkept h := Machine.ne_of_strings ownership_of_run carries_of_run hb.state ht
    hb.binds (mem_of_lookup hkept) (Location.buffer.inj h)
  shows _ _ := trivial
  seen _ _ _ _ _ := trivial

/-- From the moment on at which it was made, the variable is left alone until it is freed. -/
theorem spares_of_introduces (hslots : (slotsOf p.occurrences).Nodup)
    (haddress : ∀ o ∈ p.occurrences, o.isAddress = false)
    {before after : List (Moment Deed Machine)}
    (htrace : (Run.program known fuel p).trace .start =
      before ++ ⟨some (.declare leaf), m⟩ :: after) :
    ∀ later ∈ after, (p.domainBut known fuel b.handle).Spares m later.state := by
  have hadmits := domainBut_admits hnumbered haccepted hgotos hbare hconst hb hslots haddress
  have hgood : (p.domainBut known fuel b.handle).Good .start :=
    ⟨Traced.mem_states_start _ _, fun v hv => absurd hv.holds (Machine.not_holds_start v),
      List.forall_mem_nil _⟩
  have hmeets : ∀ moment ∈ (Run.program known fuel p).trace .start,
      (p.domainBut known fuel b.handle).Meets moment := by
    rintro ⟨deed?, t⟩ ht
    refine ⟨Traced.mem_states_of_mem_trace ht, fun name huse => ?_⟩
    cases huse
    exact ht
  have hspares := ((Run.parallel_program hadmits fuel fun _ => id).fares .start hgood _
    List.prefix_rfl hmeets).spares
  rw [htrace, List.map_append, ← List.cons_append] at hspares
  have hlater := (List.pairwise_cons.mp (List.pairwise_append.mp hspares).2.1).1
  exact fun later hmem => hlater _ (List.mem_map_of_mem hmem)

end

/-- A read-only variable keeps its value. In a program without address operators, from the moment on
at which its declaration has made it, its slot holds the value that it was given then, until the
scope that was the current one is left. This holds of all declarations but those that stand without
a block around them, in programs without jumps to labels. -/
theorem const_kept {p : Program} (hnumbered : p.Numbered) (hslots : (slotsOf p.occurrences).Nodup)
    (haccepted : p.Accepted) (hgotos : p.gotos = [])
    (haddress : ∀ o ∈ p.occurrences, o.isAddress = false) (known : Nat → Option CType)
    (fuel : Nat) {before after : List (Moment Deed Machine)} {moment : Moment Deed Machine}
    {leaf : Leaf} (htrace : (Run.program known fuel p).trace .start = before ++ moment :: after)
    (hdeclare : moment.deed = some (.declare leaf)) (hbare : leaf ∉ p.bare)
    (hconst : p.IsConst leaf) :
    ∃ b v, moment.state.lookup leaf.token.id = some b ∧
      moment.state.arena.buffer? b.handle = some #[v] ∧
      ∀ between later rest, after = between ++ later :: rest →
        later.state.arena.buffer? b.handle = some #[v] ∨
          ∃ left ∈ between ++ [later], left.state.frames.size ≤ moment.state.current := by
  obtain ⟨deed?, m⟩ := moment
  cases hdeclare
  have hmoment : ⟨some (.declare leaf), m⟩ ∈ (Run.program known fuel p).trace .start := by
    rw [htrace]
    exact List.mem_append_right _ List.mem_cons_self
  obtain ⟨b, hb⟩ := exists_introduces hmoment
  obtain ⟨v, hv⟩ := hb.ownership.exists_value hb.binds
  refine ⟨b, v, hb.lookup, hv, ?_⟩
  rintro between later rest rfl
  have hspares := spares_of_introduces hnumbered haccepted hgotos hbare hconst hb hslots haddress
    htrace later (List.mem_append_right _ List.mem_cons_self)
  rcases hspares.buffers b.handle (hb.ownership.lt_next hb.binds) fun hne => hne rfl with
    hsame | hnone
  · exact .inl (hsame.trans hv)
  · -- a variable that was freed is not live, so its scope was left
    refine .inr ?_
    by_contra hopen
    have hlive := hb.live htrace fun moment hmoment =>
      Nat.lt_of_not_le fun hle => hopen ⟨moment, hmoment, hle⟩
    rw [Arena.Live, hnone] at hlive
    cases hlive

/-! ## A program with a read-only variable -/

/-- The program `int main(){const int x = 1; int y = 0; y = x + 1; printf(x); return 0;}`. -/
def keeping : Program where
  items := [
    .function (sampleInt 1 0) (sampleName "main" 2 5 1) [] [
      .line [.declare ⟨⟨⟨sampleToken .typeKeyword "const" 6 12,
        [sampleToken .typeKeyword "int" 1 18], 2⟩,
        sampleName "x" 7 22 3, [], some (sampleNumber "1" 9 26 4)⟩, []⟩],
      .line [.declare
        ⟨⟨sampleInt 29 5, sampleName "y" 11 33 6, [], some (sampleNumber "0" 12 37 7)⟩, []⟩],
      .line [.expr (.assign none (.identifier (sampleName "y" 11 40 8)) (.binary (.arith .add)
        (.identifier (sampleName "x" 7 44 9)) (sampleNumber "1" 9 48 10)))],
      .line [.expr (.call (.identifier (sampleName "printf" 14 51 11))
        [.identifier (sampleName "x" 7 58 12)])],
      .line [.return (some (sampleNumber "0" 12 69 13))]]]

theorem keeping_isConst : keeping.IsConst (sampleName "x" 7 22 3) :=
  isConst_of_findings (by cbv)

/-- The moments of the run of the program. -/
def keepingTrace : List (Moment Deed Machine) :=
  (Run.program (fun _ => none) 100 keeping).trace .start

/-- From the moment on at which `x` is declared, its slot holds the same value until the function is
left, also when `y` is written. -/
theorem const_kept_keeping : ∃ before moment after b v,
    keeping.Numbered ∧ (slotsOf keeping.occurrences).Nodup ∧ keeping.Accepted ∧
      keeping.gotos = [] ∧ (∀ o ∈ keeping.occurrences, o.isAddress = false) ∧
      keepingTrace = before ++ moment :: after ∧
      moment.deed = some (.declare (sampleName "x" 7 22 3)) ∧
      sampleName "x" 7 22 3 ∉ keeping.bare ∧ keeping.IsConst (sampleName "x" 7 22 3) ∧
      moment.state.lookup 7 = some b ∧ moment.state.arena.buffer? b.handle = some #[v] ∧
      ∀ between later rest, after = between ++ later :: rest →
        later.state.arena.buffer? b.handle = some #[v] ∨
          ∃ left ∈ between ++ [later], left.state.frames.size ≤ moment.state.current := by
  have hnumbered : keeping.Numbered := by decide +kernel
  have hslots : (slotsOf keeping.occurrences).Nodup := by decide +kernel
  have haccepted : keeping.Accepted := by
    unfold Accepted
    cbv
  have haddress : ∀ o ∈ keeping.occurrences, o.isAddress = false := by decide +kernel
  have hdeclares : (keepingTrace.any fun moment =>
      moment.deed = some (.declare (sampleName "x" 7 22 3))) = true := by decide +kernel
  obtain ⟨moment, hmoment, hdeed⟩ := List.any_eq_true.mp hdeclares
  obtain ⟨before, after, htrace⟩ := List.append_of_mem hmoment
  obtain ⟨b, v, h⟩ := const_kept hnumbered hslots haccepted rfl haddress (fun _ => none) 100 htrace
    (of_decide_eq_true hdeed) List.not_mem_nil keeping_isConst
  exact ⟨before, moment, after, b, v, hnumbered, hslots, haccepted, rfl, haddress, htrace,
    of_decide_eq_true hdeed, List.not_mem_nil, keeping_isConst, h⟩

/-! ## A struct that is read-only -/

/-- The program `struct S {int n;}; int main(){struct S y; y.n = 1; const struct S x = y; x.n = 5;
printf(x.n); return 0;}`. -/
def mending : Program where
  items := [
    .struct (sampleName "S" 2 8 0) [⟨sampleInt 11 1, sampleName "n" 5 15 2, [], none⟩],
    .function (sampleInt 20 3) (sampleName "main" 8 24 4) [] [
      .line [.declare ⟨⟨sampleStruct "S" 2 31 5, sampleName "y" 11 40 6, [], none⟩, []⟩],
      .line [.expr (.assign none (.member (.identifier (sampleName "y" 11 43 7))
        (sampleName "n" 5 45 8)) (sampleNumber "1" 14 49 9))],
      .line [.declare ⟨⟨⟨sampleToken .typeKeyword "const" 15 52,
        [sampleToken .typeKeyword "struct" 1 58, sampleToken .identifier "S" 2 65], 10⟩,
        sampleName "x" 16 67 11, [], some (.identifier (sampleName "y" 11 71 12))⟩, []⟩],
      .line [.expr (.assign none (.member (.identifier (sampleName "x" 16 74 13))
        (sampleName "n" 5 76 14)) (sampleNumber "5" 17 80 15))],
      .line [.expr (.call (.identifier (sampleName "printf" 18 83 16))
        [.member (.identifier (sampleName "x" 16 90 17)) (sampleName "n" 5 92 18)])],
      .line [.return (some (sampleNumber "0" 20 103 19))]]]

theorem mending_isConst : mending.IsConst (sampleName "x" 16 67 11) :=
  isConst_of_findings (by cbv)

/-- The moments of the run of the program. -/
def mendingTrace : List (Moment Deed Machine) :=
  (Run.program (fun _ => none) 100 mending).trace .start

/-- When the program has written `x.n`, the slot of `x` holds the struct value that it held when `x`
was declared, but the field of the struct value has changed. -/
theorem mending_mends : ∃ before moment after b id, ∃ later ∈ after,
    mendingTrace = before ++ moment :: after ∧
      moment.deed = some (.declare (sampleName "x" 16 67 11)) ∧
      moment.state.lookup 16 = some b ∧
      moment.state.arena.buffer? b.handle = some #[.record id] ∧
      later.state.arena.buffer? b.handle = some #[.record id] ∧
      later.state.records.field? id "n" ≠ moment.state.records.field? id "n" := by
  have hmends : (mendingTrace[14]?.any fun moment => mendingTrace[17]?.any fun later =>
      moment.deed = some (.declare (sampleName "x" 16 67 11)) ∧
        (moment.state.lookup 16).map (·.handle) = some 2 ∧
        moment.state.arena.buffer? 2 = some #[.record 1] ∧
        later.state.arena.buffer? 2 = some #[.record 1] ∧
        later.state.records.field? 1 "n" ≠ moment.state.records.field? 1 "n") = true := by
    decide +kernel
  obtain ⟨moment, hmoment, hany⟩ := (Option.any_eq_true _ _).mp hmends
  obtain ⟨later, hlater, hfacts⟩ := (Option.any_eq_true _ _).mp hany
  obtain ⟨hdeed, hlookup, hfacts⟩ := of_decide_eq_true hfacts
  obtain ⟨b, hb, hhandle⟩ := Option.map_eq_some_iff.mp hlookup
  obtain ⟨hlength, rfl⟩ := List.getElem?_eq_some_iff.mp hmoment
  refine ⟨mendingTrace.take 14, _, mendingTrace.drop 15, b, 1, later, ?_, ?_, hdeed, hb, ?_⟩
  · exact List.mem_of_getElem? (i := 2) (by rw [List.getElem?_drop]; exact hlater)
  · rw [← List.drop_eq_getElem_cons hlength, List.take_append_drop]
  · rw [hhandle]
    exact hfacts

/-- Fields of read-only struct values do not always keep their values: the program prints the value
that it has written. -/
theorem not_fields_kept :
    (mending.run (fun _ => none) 100).2.output = "5\n" ∧
    ¬∀ p : Program, p.Numbered → (slotsOf p.occurrences).Nodup → p.Accepted → p.gotos = [] →
      (∀ o ∈ p.occurrences, o.isAddress = false) → ∀ known fuel before moment after leaf,
      (Run.program known fuel p).trace .start = before ++ moment :: after →
      moment.deed = some (.declare leaf) → leaf ∉ p.bare → p.IsConst leaf →
      ∀ b id, moment.state.lookup leaf.token.id = some b →
        moment.state.arena.buffer? b.handle = some #[.record id] →
        ∀ later ∈ after, later.state.arena.buffer? b.handle = some #[.record id] →
          ∀ name, later.state.records.field? id name = moment.state.records.field? id name := by
  have hnumbered : mending.Numbered := by decide +kernel
  have hslots : (slotsOf mending.occurrences).Nodup := by decide +kernel
  have haccepted : mending.Accepted := by
    unfold Accepted
    cbv
  have haddress : ∀ o ∈ mending.occurrences, o.isAddress = false := by decide +kernel
  refine ⟨by decide +kernel, fun hall => ?_⟩
  obtain ⟨before, moment, after, b, id, later, hlater, htrace, hdeed, hlookup, hholds, hstill,
    hne⟩ := mending_mends
  exact hne (hall mending hnumbered hslots haccepted rfl haddress _ _ _ _ _ _ htrace hdeed
    List.not_mem_nil mending_isConst b id hlookup hholds later hlater hstill "n")

end Program

end MiniC
