import MiniC.Proofs.Names.Analysis

set_option autoImplicit false

/-! # The scopes of the analysis are a tree

Each scope lies in an earlier one, except for the global scope, which is the first one. So there is
one way outwards from each scope, and it ends at the global scope. What names mean, where a jump may
stand and which function a label belongs to is found on this way. -/

namespace MiniC

namespace StaticScope

/-- What a scope is and where it lies. -/
def place (s : StaticScope) : Option Nat × ScopeKind := (s.parent, s.kind)

/-- Whether no name is declared twice in a scope, and labels and jumps belong to a function. -/
structure Sound (s : StaticScope) : Prop where
  ids : (s.names.map Prod.fst).Nodup
  marks : s.kind ≠ .function → s.labels = [] ∧ s.gotos = []

theorem sound_opened (parent : Option Nat) (kind : ScopeKind) (f : Option Signature) :
    (opened parent kind f).Sound :=
  ⟨List.nodup_nil, fun _ => ⟨rfl, rfl⟩⟩

end StaticScope

namespace Analysis

variable {a : Analysis} {scopes scopes' : Array StaticScope} {i : Nat} {is : List Nat}

/-- Whether the scopes of a state are a tree, with the global scope at its root. -/
structure IsTree (a : Analysis) : Prop where
  parent_lt : ∀ (i : Nat) s p, a.scopes[i]? = some s → s.parent = some p → p < i
  root : ∀ (i : Nat) s, a.scopes[i]? = some s → (s.parent = none ↔ i = 0)
  global : ∀ s, a.scopes[0]? = some s → s.kind = .global
  current_lt : ∀ i, a.current = some i → i < a.scopes.size
  sound : ∀ (i : Nat) s, a.scopes[i]? = some s → s.Sound

/-- The way outwards from a scope, as the numbers of the scopes on it: it goes on to the parent of a
scope, and ends only where there is none. -/
inductive Path (scopes : Array StaticScope) : Nat → List Nat → Prop
  | last {i : Nat} {s : StaticScope} (hs : scopes[i]? = some s) (hparent : s.parent = none) :
    Path scopes i [i]
  | next {i p : Nat} {s : StaticScope} {is : List Nat} (hs : scopes[i]? = some s)
    (hparent : s.parent = some p) (hpath : Path scopes p is) : Path scopes i (i :: is)

/-! ## The way outwards -/

/-- From each scope there is a way to the global scope. -/
theorem IsTree.exists_path (ha : a.IsTree) (hi : i < a.scopes.size) :
    ∃ is, Path a.scopes i is ∧ is.getLast? = some 0 := by
  induction i using Nat.strongRecOn with
  | ind i ih =>
    have hs : a.scopes[i]? = some a.scopes[i] := Array.getElem?_eq_getElem hi
    cases hparent : a.scopes[i].parent with
    | none => exact ⟨[i], .last hs hparent, by rw [(ha.root i _ hs).mp hparent]; rfl⟩
    | some p =>
      have hp := ha.parent_lt i _ p hs hparent
      obtain ⟨is, hpath, hlast⟩ := ih p hp (Nat.lt_trans hp hi)
      refine ⟨i :: is, .next hs hparent hpath, ?_⟩
      rw [List.getLast?_cons, hlast]
      rfl

/-- The scopes around a scope are those on the way outwards. -/
theorem Path.outwardsFrom_eq (h : Path a.scopes i is) (ha : a.IsTree) :
    outwardsFrom a.scopes i = is.filterMap (a.scopes[·]?) := by
  induction h with
  | last hs hparent => rw [outwardsFrom, hs]; simp [hs, hparent]
  | next hs hparent _ ih =>
    have hp := ha.parent_lt _ _ _ hs hparent
    rw [outwardsFrom, hs]
    simp [hs, hparent, hp, ih]

/-- The innermost function scope is the first one on the way outwards. -/
theorem Path.functionScopeFrom_eq (h : Path a.scopes i is) (ha : a.IsTree) :
    functionScopeFrom a.scopes i =
      is.find? fun j => a.scopes[j]?.map (·.kind) = some .function := by
  induction h with
  | last hs hparent =>
    rw [functionScopeFrom, hs]
    simp only [hparent, List.find?_cons, hs, Option.map_some, Option.some.injEq, List.find?_nil]
    split <;> simp_all
  | next hs hparent _ ih =>
    have hp := ha.parent_lt _ _ _ hs hparent
    rw [functionScopeFrom, hs]
    simp only [hparent, if_pos hp, ih, List.find?_cons, hs, Option.map_some, Option.some.injEq]
    split <;> simp_all

/-- Every search that goes outwards from the current scope ends at the global scope. -/
structure Searched (a : Analysis) (is : List Nat) : Prop where
  path : ∀ i, a.current = some i → Path a.scopes i is
  root : is.getLast? = some 0
  outwards : a.outwards = is.filterMap (a.scopes[·]?)
  function : a.functionScope? = is.find? fun j => a.scopes[j]?.map (·.kind) = some .function

theorem IsTree.searched (ha : a.IsTree) (hi : a.current = some i) : ∃ is, a.Searched is := by
  obtain ⟨is, hpath, hroot⟩ := ha.exists_path (ha.current_lt i hi)
  refine ⟨is, fun j hj => ?_, hroot, ?_, ?_⟩
  · rw [hi] at hj
    cases hj
    exact hpath
  · rw [Analysis.outwards, hi]
    exact hpath.outwardsFrom_eq ha
  · rw [functionScope?, hi, Option.bind_some]
    exact hpath.functionScopeFrom_eq ha

/-! ## The innermost function scope -/

theorem functionScopeFrom_kind {j : Nat} (h : functionScopeFrom scopes i = some j) :
    ∃ s, scopes[j]? = some s ∧ s.kind = .function := by
  induction i using Nat.strongRecOn with
  | ind i ih =>
    rw [functionScopeFrom] at h
    cases hs : scopes[i]? with
    | none =>
      rw [hs] at h
      cases h
    | some s =>
      rw [hs] at h
      dsimp only at h
      split at h
      · cases h
        exact ⟨s, hs, ‹_›⟩
      · split at h
        · cases h
        · split at h
          · exact ih _ ‹_› h
          · cases h

theorem kind_of_functionScope? {s : StaticScope} (h : a.functionScope? = some i)
    (hs : a.scopes[i]? = some s) : s.kind = .function := by
  obtain ⟨_, -, hfrom⟩ := Option.bind_eq_some_iff.mp h
  obtain ⟨s', hs', hkind⟩ := functionScopeFrom_kind hfrom
  rw [hs] at hs'
  cases hs'
  exact hkind

/-- The function around a scope depends on the scopes around it only. -/
theorem functionScopeFrom_congr (c : Nat)
    (h : ∀ i ≤ c, (scopes'[i]?).map StaticScope.place = (scopes[i]?).map StaticScope.place) :
    functionScopeFrom scopes' c = functionScopeFrom scopes c := by
  induction c using Nat.strongRecOn with
  | ind c ih =>
    have hc := h c (Nat.le_refl c)
    unfold functionScopeFrom
    cases hs : scopes[c]? with
    | none =>
      rw [hs] at hc
      rw [Option.map_eq_none_iff.mp hc]
    | some s =>
      rw [hs] at hc
      obtain ⟨s', hs', hplace⟩ := Option.map_eq_some_iff.mp hc
      obtain ⟨hparent, hkind⟩ := Prod.mk.inj hplace
      rw [hs']
      dsimp only
      rw [hkind, hparent]
      split
      · rfl
      · split
        · rfl
        · rename_i p _
          split
          · rename_i hp
            exact ih p hp fun i hi => h i (Nat.le_of_lt (Nat.lt_of_le_of_lt hi hp))
          · rfl

/-! ## Changes of the state -/

theorem isTree_start : start.IsTree := by
  have hnone (i : Nat) (s : StaticScope) : start.scopes[i]? ≠ some s := by simp [start]
  exact ⟨fun i s _ hs => absurd hs (hnone i s), fun i s hs => absurd hs (hnone i s),
    fun s hs => absurd hs (hnone 0 s), nofun, fun i s hs => absurd hs (hnone i s)⟩

theorem IsTree.congr {t : Analysis} (ha : a.IsTree) (hscopes : t.scopes = a.scopes)
    (hcurrent : t.current = a.current) : t.IsTree where
  parent_lt := hscopes ▸ ha.parent_lt
  root := hscopes ▸ ha.root
  global := hscopes ▸ ha.global
  current_lt := by rw [hscopes, hcurrent]; exact ha.current_lt
  sound := hscopes ▸ ha.sound

/-- The state after a scope was opened in the current one. -/
def entered (a : Analysis) (kind : ScopeKind) (f : Option Signature) : Analysis :=
  { a with
    scopes := a.scopes.push (.opened a.current kind f)
    current := some a.scopes.size }

theorem getElem?_entered {kind : ScopeKind} {f : Option Signature} {s : StaticScope}
    (hs : a.scopes[i]? = some s) : (a.entered kind f).scopes[i]? = some s := by
  have hi := (Array.getElem?_eq_some_iff.mp hs).1
  rw [entered, Array.getElem?_push_lt hi, ← hs, Array.getElem?_eq_getElem hi]

/-- The first scope is the global one, and all others are opened in a scope. -/
theorem IsTree.entered (ha : a.IsTree) {kind : ScopeKind} (f : Option Signature)
    (hroot : a.current = none ↔ a.scopes.size = 0) (hkind : a.scopes.size = 0 → kind = .global) :
    (a.entered kind f).IsTree := by
  have hscope {i : Nat} {s : StaticScope} (hs : (a.entered kind f).scopes[i]? = some s) :
      (i = a.scopes.size ∧ s = .opened a.current kind f) ∨ a.scopes[i]? = some s := by
    rw [Analysis.entered, Array.getElem?_push] at hs
    split at hs
    · cases hs
      exact .inl ⟨‹_›, rfl⟩
    · exact .inr hs
  constructor
  · intro i s p hs hp
    obtain ⟨rfl, rfl⟩ | hs := hscope hs
    · exact ha.current_lt p hp
    · exact ha.parent_lt i s p hs hp
  · intro i s hs
    obtain ⟨rfl, rfl⟩ | hs := hscope hs
    · exact hroot
    · exact ha.root i s hs
  · intro s hs
    obtain ⟨hsize, rfl⟩ | hs := hscope hs
    · exact hkind hsize.symm
    · exact ha.global s hs
  · rintro i ⟨⟩
    rw [Analysis.entered, Array.size_push]
    exact Nat.lt_succ_self _
  · intro i s hs
    obtain ⟨rfl, rfl⟩ | hs := hscope hs
    · exact StaticScope.sound_opened _ _ _
    · exact ha.sound i s hs

/-- The state after the current scope was left. -/
def left (a : Analysis) : Analysis :=
  { a with current := (a.current.bind fun i => a.scopes[i]?).bind (·.parent) }

theorem IsTree.left (ha : a.IsTree) : a.left.IsTree where
  parent_lt := ha.parent_lt
  root := ha.root
  global := ha.global
  current_lt p hp := by
    obtain ⟨s, hs, hparent⟩ := Option.bind_eq_some_iff.mp hp
    obtain ⟨i, hi, hs⟩ := Option.bind_eq_some_iff.mp hs
    exact Nat.lt_trans (ha.parent_lt i s p hs hparent) (ha.current_lt i hi)
  sound := ha.sound

/-- A change of one scope that keeps where it lies and what it is. -/
theorem IsTree.modify (ha : a.IsTree) (k : Nat) {f : StaticScope → StaticScope}
    (hf : ∀ s, a.scopes[k]? = some s →
      (f s).parent = s.parent ∧ (f s).kind = s.kind ∧ (f s).Sound) :
    ({ a with scopes := a.scopes.modify k f } : Analysis).IsTree := by
  have hscope {i : Nat} {s : StaticScope} (hs : (a.scopes.modify k f)[i]? = some s) :
      ∃ s', a.scopes[i]? = some s' ∧ s.parent = s'.parent ∧ s.kind = s'.kind ∧ s.Sound := by
    rw [Array.getElem?_modify] at hs
    split at hs
    · obtain ⟨s', hs', rfl⟩ := Option.map_eq_some_iff.mp hs
      subst k
      exact ⟨s', hs', hf s' hs'⟩
    · exact ⟨s, hs, rfl, rfl, ha.sound i s hs⟩
  constructor
  · intro i s p hs hp
    obtain ⟨s', hs', hparent, -⟩ := hscope hs
    exact ha.parent_lt i s' p hs' (hparent ▸ hp)
  · intro i s hs
    obtain ⟨s', hs', hparent, -⟩ := hscope hs
    rw [hparent]
    exact ha.root i s' hs'
  · intro s hs
    obtain ⟨s', hs', -, hkind, -⟩ := hscope hs
    rw [hkind]
    exact ha.global s' hs'
  · intro i hi
    rw [Array.size_modify]
    exact ha.current_lt i hi
  · intro i s hs
    obtain ⟨s', -, -, -, hsound⟩ := hscope hs
    exact hsound

end Analysis

end MiniC
