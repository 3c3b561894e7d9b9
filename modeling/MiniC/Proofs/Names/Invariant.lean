import Mathlib.Data.List.Nodup
import MiniC.Proofs.Composed
import MiniC.Proofs.Names.History
import MiniC.Proofs.Names.Lookup

set_option autoImplicit false

/-! # The invariant of a run of a linked program

Where the judgement says that names mean what `Γ` says, the run of a linked program is in a state in
which the same names are variables, made by the very declarations that `Γ` names. There is one
exception: a declaration that stands without a block around it, as the whole branch of a condition
or body of a loop, is over for the judgement where the run still sees its variable. -/

namespace MiniC

/-- What the runs of a program are looked at with: how its names are resolved, its global variables,
and the declarations in it that stand without a block around them. -/
structure Setting extends Linkage where
  globals : List Leaf
  bare : List Leaf

/-! ## Names and variables -/

/-- Whether names mean the variables that they should by `Γ`: those that the declarations in `Γ`
made last, or those of declarations without a block. All variables that are found come from
declarations in `Ω`. -/
structure Agrees (bare : List Leaf) (Γ : Meanings) (Ω : List Leaf) (lookup : Nat → Option Binding)
    (latest : Leaf → Option Binding) : Prop where
  bound : ∀ id l, Γ id = some (.variable l) → ∃ b, lookup id = some b
  origin : ∀ id b, lookup id = some b → ∃ o ∈ Ω, o.token.id = id ∧ latest o = some b ∧
    ∀ l, Γ id = some (.variable l) → o = l ∨ o ∈ bare

namespace Agrees

variable {bare Ω Ω' : List Leaf} {Γ Δ : Meanings} {lookup lookup' : Nat → Option Binding}
  {latest latest' : Leaf → Option Binding}

theorem congr (h : Agrees bare Γ Ω lookup latest) (hlookup : ∀ id, lookup' id = lookup id)
    (hlatest : ∀ o ∈ Ω, latest' o = latest o) (hΩ : ∀ o ∈ Ω, o ∈ Ω') :
    Agrees bare Γ Ω' lookup' latest' where
  bound id l hl := by
    rw [hlookup]
    exact h.bound id l hl
  origin id b hb := by
    rw [hlookup] at hb
    obtain ⟨o, ho, hid, hlast, hΓ⟩ := h.origin id b hb
    exact ⟨o, hΩ o ho, hid, (hlatest o ho).trans hlast, hΓ⟩

/-- Fewer variables may have a meaning. -/
theorem weaken (h : Agrees bare Γ Ω lookup latest)
    (hsub : ∀ id l, Δ id = some (.variable l) → Γ id = some (.variable l)) :
    Agrees bare Δ Ω lookup latest where
  bound id l hl := h.bound id l (hsub id l hl)
  origin id b hb := by
    obtain ⟨o, ho, hid, hlast, hΓ⟩ := h.origin id b hb
    exact ⟨o, ho, hid, hlast, fun l hl => hΓ l (hsub id l hl)⟩

/-- A declaration makes a variable, and is the origin of it. -/
theorem declare (h : Agrees bare Γ Ω lookup latest) {o : Leaf} (ho : o ∈ Ω) {b : Binding}
    (hlookup : ∀ id, lookup' id = if id = o.token.id then some b else lookup id)
    (hlatest : ∀ l, latest' l = if l = o then some b else latest l) :
    Agrees bare (Γ.declare o) Ω lookup' latest' where
  bound id l hl := by
    rw [hlookup]
    split
    · exact ⟨b, rfl⟩
    · rename_i hid
      rw [Meanings.declare, Meanings.set_other _ _ hid] at hl
      exact h.bound id l hl
  origin id b' hb := by
    rw [hlookup] at hb
    split at hb
    · rename_i hid
      cases hb
      refine ⟨o, ho, hid.symm, by rw [hlatest, if_pos rfl], fun l hl => ?_⟩
      rw [hid, Meanings.declare, Meanings.set_same] at hl
      cases hl
      exact .inl rfl
    · rename_i hid
      obtain ⟨o', ho', hid', hlast, hΓ⟩ := h.origin id b' hb
      refine ⟨o', ho', hid', ?_, fun l hl => ?_⟩
      · rw [hlatest, if_neg]
        · exact hlast
        · rintro rfl
          exact hid hid'.symm
      · rw [Meanings.declare, Meanings.set_other _ _ hid] at hl
        exact hΓ l hl

end Agrees

/-- What a name means after declarations, if not the variable of one of them. -/
theorem Meanings.declareAll_apply (Γ : Meanings) (ds : List Leaf) (id : Nat) :
    Γ.declareAll ds id = Γ id ∨ ∃ d ∈ ds, Γ.declareAll ds id = some (.variable d) := by
  induction ds generalizing Γ with
  | nil => exact .inl rfl
  | cons d rest ih =>
    rw [declareAll_cons]
    rcases ih (Γ.declare d) with h | ⟨d', hd', h⟩
    · by_cases hid : id = d.token.id
      · subst hid
        exact .inr ⟨d, List.mem_cons_self, by rw [h, declare, set_same]⟩
      · exact .inl (by rw [h, declare, set_other _ _ hid])
    · exact .inr ⟨d', List.mem_cons_of_mem d hd', h⟩

/-- Declarations without a block around them may be left out of the meanings. -/
theorem Agrees.forget {bare Ω : List Leaf} {Γ : Meanings} {lookup : Nat → Option Binding}
    {latest : Leaf → Option Binding} {ds : List Leaf}
    (h : Agrees bare (Γ.declareAll ds) Ω lookup latest) (hds : ∀ d ∈ ds, d ∈ bare) :
    Agrees bare Γ Ω lookup latest where
  bound id l hl := by
    rcases Γ.declareAll_apply ds id with hsame | ⟨d, -, hd⟩
    · exact h.bound id l (hsame.trans hl)
    · exact h.bound id d hd
  origin id b hb := by
    obtain ⟨o, ho, hid, hlast, hΓ⟩ := h.origin id b hb
    refine ⟨o, ho, hid, hlast, fun l hl => ?_⟩
    rcases Γ.declareAll_apply ds id with hsame | ⟨d, hmem, hd⟩
    · exact hΓ l (hsame.trans hl)
    · rcases hΓ d hd with rfl | hbare
      · exact .inr (hds o hmem)
      · exact .inr hbare

/-! ## Functions and states -/

/-- Whether the functions among meanings are functions with as many parameters in `G`. -/
def Meanings.FunctionsIn (Γ G : Meanings) : Prop :=
  ∀ id n, Γ id = some (.function n) → G id = some (.function n)

theorem Meanings.FunctionsIn.declareAll {Γ G : Meanings} (h : Γ.FunctionsIn G) (ds : List Leaf) :
    (Γ.declareAll ds).FunctionsIn G := by
  intro id n hn
  rcases Γ.declareAll_apply ds id with hsame | ⟨d, -, hd⟩
  · exact h id n (hsame.symm.trans hn)
  · rw [hd] at hn
    cases hn

namespace Setting

variable (S : Setting) (G : Meanings)

/-- Where the variables may be found that a part of a program declares: those that it declares in
the scope around it are found in `Ω`, those in scopes of its own are new, and those without a block
around them are known as such. -/
structure Placed (direct inner bare Ω : List Leaf) : Prop where
  direct : ∀ l ∈ direct, l ∈ Ω
  nodup : inner.Nodup
  apart : ∀ l ∈ inner, l ∉ Ω
  bare : ∀ l ∈ bare, l ∈ S.bare

/-- Whether the body of a function is linked where the function is, with its parameters. -/
structure Ready (f : FunctionDef) : Prop where
  body : ∃ Γ : Meanings, Γ.Within G ∧ Stmt.Linked.AllLinked S.toLinkage
    (Γ.declareAll (f.params.map (·.name))) .none f.body
  placed : S.Placed [] (Stmt.block f.body).inner (Stmt.block f.body).bare
    (f.params.map (·.name) ++ S.globals)

/-- Whether the functions of a state are those that have been declared globally. -/
structure Links (m : Machine) : Prop where
  ready : ∀ id f, (id, f) ∈ m.functions → S.Ready G f ∧ G id = some (.function f.params.length) ∧
    (S.isPrint id → S.hasPrint)
  known : ∀ id n, G id = some (.function n) →
    (m.functions.lookup id).isSome ∨ (m.prototypes.lookup id).isSome

/-- Whether the variables of a state are those that the declarations of the program have made. -/
structure Tracks (Γ : Meanings) (Ω : List Leaf) (h : History) (m : Machine) : Prop where
  fresh : ∀ e ∈ h.visible, e.2.handle < m.arena.next
  distinct : (h.visible.map (·.2.handle)).Nodup
  outermost : Agrees S.bare G S.globals m.lookupGlobal fun l => h.global.lookup l
  here : Agrees S.bare Γ Ω m.lookup h.latest

/-- The invariant of a run, at a place where names mean what `Γ` says. Jumps to labels may leave out
declarations, so that nothing is said about variables where there are any. -/
structure Inv (Γ : Meanings) (Ω : List Leaf) (h : History) (m : Machine) : Prop where
  nested : m.Nested
  links : S.Links G m
  functions : Γ.FunctionsIn G
  level : h.calls = [] ↔ m.current = Machine.globalScope
  tracks : ¬S.hasGotos → S.Tracks G Γ Ω h m

/-- Whether the variable that an occurrence of a name is found to mean was made last by the
declaration that the occurrence resolves to, or else by one without a block around it; and by no
other declaration. -/
def Resolved (h : History) (m : Machine) (leaf : Leaf) : Prop :=
  ∃ v b o, S.resolves leaf (.variable v) ∧ m.lookup leaf.token.id = some b ∧
    o.token.id = leaf.token.id ∧ h.latest o = some b ∧ (∀ o', h.latest o' = some b → o' = o) ∧
    (o = v.leaf ∨ o ∈ S.bare)

/-- Whether a run of a linked program may stop for a reason. -/
def Allows (stop : Stop) : Prop :=
  stop.isLinkage = false ∨ S.hasPrint ∨
    S.hasGotos ∧ ∃ name pos, stop = .fault (.undefinedName name) pos

variable {S G} {Γ Δ : Meanings} {Ω Ω' : List Leaf} {h : History} {m m' : Machine}

theorem Allows.locate {stop : Stop} (hstop : S.Allows stop) (pos : Option Position) :
    S.Allows (stop.locate pos) := by
  rcases hstop with hfree | hprint | ⟨hgotos, name, pos', rfl⟩
  · exact .inl ((stop.isLinkage_locate pos).trans hfree)
  · exact .inr (.inl hprint)
  · refine .inr (.inr ⟨hgotos, name, ?_⟩)
    cases pos' with
    | none => exact ⟨pos, rfl⟩
    | some p => exact ⟨some p, rfl⟩

theorem Links.congr (hm : S.Links G m) (hfunctions : m'.functions = m.functions)
    (hprototypes : m'.prototypes = m.prototypes) : S.Links G m' where
  ready := by
    rw [hfunctions]
    exact hm.ready
  known := by
    rw [hfunctions, hprototypes]
    exact hm.known

theorem Tracks.congr (hm : S.Tracks G Γ Ω h m) (halike : m.Alike m')
    (hnext : m.arena.next ≤ m'.arena.next) : S.Tracks G Γ Ω h m' where
  fresh e he := Nat.lt_of_lt_of_le (hm.fresh e he) hnext
  distinct := hm.distinct
  outermost := hm.outermost.congr
    (Machine.lookupGlobal_congr (halike.faces Machine.globalScope)) (fun _ _ => rfl) fun _ => id
  here := hm.here.congr halike.lookup (fun _ _ => rfl) fun _ => id

/-- A step that leaves the variables, the scopes and the functions alone. -/
theorem Inv.congr (hm : S.Inv G Γ Ω h m) (halike : m.Alike m')
    (hfunctions : m'.functions = m.functions) (hprototypes : m'.prototypes = m.prototypes)
    (hnext : m.arena.next ≤ m'.arena.next) : S.Inv G Γ Ω h m' where
  nested := halike.nested hm.nested
  links := hm.links.congr hfunctions hprototypes
  functions := hm.functions
  level := by
    rw [halike.current]
    exact hm.level
  tracks hfree := (hm.tracks hfree).congr halike hnext

/-- Declarations without a block around them may be left out of the meanings. -/
theorem Inv.forget {ds : List Leaf} (hm : S.Inv G (Γ.declareAll ds) Ω h m)
    (hds : ∀ d ∈ ds, d ∈ S.bare) (hΓ : Γ.FunctionsIn G) : S.Inv G Γ Ω h m where
  nested := hm.nested
  links := hm.links
  functions := hΓ
  level := hm.level
  tracks hfree :=
    { hm.tracks hfree with
      here := (hm.tracks hfree).here.forget hds }

/-- Where there are jumps to labels, names may mean anything. -/
theorem Inv.jump (hm : S.Inv G Δ Ω h m) (hgotos : S.hasGotos) (hΓ : Γ.FunctionsIn G) :
    S.Inv G Γ Ω h m where
  nested := hm.nested
  links := hm.links
  functions := hΓ
  level := hm.level
  tracks hfree := absurd hgotos hfree

/-- An occurrence of a name that is linked is resolved. -/
theorem Inv.resolved (hm : S.Inv G Γ Ω h m) (hfree : ¬S.hasGotos) {leaf : Leaf}
    (hlinked : (Expr.identifier leaf).Linked S.toLinkage Γ) : S.Resolved h m leaf := by
  obtain ⟨v, hresolves, hv⟩ := hlinked
  have htracks := hm.tracks hfree
  obtain ⟨b, hb⟩ := htracks.here.bound _ _ hv
  obtain ⟨o, -, hid, hlast, hΓ⟩ := htracks.here.origin _ b hb
  refine ⟨v, b, o, hresolves, hb, hid, hlast, fun o' hlast' => ?_, hΓ _ hv⟩
  -- no two declarations have made the variable of one handle
  have heq := List.inj_on_of_nodup_map htracks.distinct (mem_of_lookup hlast')
    (mem_of_lookup hlast) rfl
  exact congrArg Prod.fst heq

end Setting

end MiniC
