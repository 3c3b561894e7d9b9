import MiniC.Proofs.Analyses
import MiniC.Proofs.Names.Checked
import MiniC.Proofs.Scoping.Tree

set_option autoImplicit false

/-! # Labels and jumps

A label belongs to the function in which it stands, however deep, but a jump comes to it only from
inside the block at whose top level it stands: such a label is in reach of the jump. The analysis
collects the labels and the jumps of a function in the scope of the function. It establishes that no
two labels have the same name, and that every jump names one of them, in reach or not. -/

namespace MiniC

/-! ## Jumps and their reach -/

/-- A jump to a label, with the names of the labels that are in its reach. -/
structure Jump where
  label : Leaf
  reach : List String
deriving DecidableEq, Repr

namespace Jump

/-- The name of the label that a jump goes to. -/
def name (j : Jump) : String := j.label.token.text

/-- Whether a jump comes to its label. -/
def Lands (j : Jump) : Prop := j.name ∈ j.reach

instance : DecidablePred Lands := fun j => inferInstanceAs (Decidable (j.name ∈ j.reach))

end Jump

/-- The jump that an instruction makes, if labels with the names `reach` are in reach. -/
def Instr.jumps (reach : List String) : Instr → List Jump
  | .goto label => [⟨label, reach⟩]
  | _ => []

namespace Stmt

/-- The label that a statement is. -/
def label? : Stmt → Option Leaf
  | .label name => some name
  | _ => none

/-- The names of the labels at the top level of a block. -/
def targets (body : List Stmt) : List String :=
  body.filterMap fun s => s.label?.map (·.token.text)

/-- The labels in a statement. -/
def labels : Stmt → List Leaf
  | .block body => labelsAll body
  | .line _ => []
  | .label name => [name]
  | .branches conditional otherwise => labelsBranches conditional ++ labelsElse otherwise
  | .while _ body => body.labels
  | .doWhile _ body => body.labels
  | .for _ _ _ body => body.labels
  | .switch _ parts => labelsCases parts
where
  /-- The labels in statements. -/
  labelsAll : List Stmt → List Leaf
    | [] => []
    | s :: rest => s.labels ++ labelsAll rest
  /-- The labels in branches. -/
  labelsBranches : List (Expr × Stmt) → List Leaf
    | [] => []
    | (_, body) :: rest => body.labels ++ labelsBranches rest
  /-- The labels in the branch for no condition. -/
  labelsElse : Option Stmt → List Leaf
    | none => []
    | some body => body.labels
  /-- The labels in the cases of a switch. -/
  labelsCases : List (Option Expr × List Stmt) → List Leaf
    | [] => []
    | (_, body) :: rest => labelsAll body ++ labelsCases rest

/-- The jumps in a statement around which labels with the names `reach` are in reach; a loop does
not hand on the jump that its initial instruction may make. -/
def jumps (reach : List String) : Stmt → List Jump
  | .block body => jumpsAll (targets body ++ reach) body
  | .line instrs => instrs.flatMap (Instr.jumps reach)
  | .label _ => []
  | .branches conditional otherwise => jumpsBranches reach conditional ++ jumpsElse reach otherwise
  | .while _ body => body.jumps reach
  | .doWhile _ body => body.jumps reach
  | .for _ _ _ body => body.jumps reach
  | .switch _ parts => jumpsCases reach parts
where
  /-- The jumps in statements. -/
  jumpsAll (reach : List String) : List Stmt → List Jump
    | [] => []
    | s :: rest => s.jumps reach ++ jumpsAll reach rest
  /-- The jumps in branches. -/
  jumpsBranches (reach : List String) : List (Expr × Stmt) → List Jump
    | [] => []
    | (_, body) :: rest => body.jumps reach ++ jumpsBranches reach rest
  /-- The jumps in the branch for no condition. -/
  jumpsElse (reach : List String) : Option Stmt → List Jump
    | none => []
    | some body => body.jumps reach
  /-- The jumps in the cases of a switch, each of which is a block. -/
  jumpsCases (reach : List String) : List (Option Expr × List Stmt) → List Jump
    | [] => []
    | (_, body) :: rest => jumpsAll (targets body ++ reach) body ++ jumpsCases reach rest

end Stmt

/-- The labels in the body of a function. -/
def FunctionDef.labels (f : FunctionDef) : List Leaf := Stmt.labels.labelsAll f.body

/-- The jumps in the body of a function. -/
def FunctionDef.jumps (f : FunctionDef) : List Jump := (Stmt.block f.body).jumps []

/-! ### Jumps among all jumps -/

theorem Instr.label_mem_gotos {i : Instr} {reach : List String} {j : Jump}
    (h : j ∈ i.jumps reach) : j.label ∈ i.gotos := by
  cases i with
  | goto label =>
    cases List.mem_singleton.mp h
    exact List.mem_singleton_self _
  | _ => cases h

namespace Stmt

mutual

/-- A jump goes to a label that the statement jumps to. -/
theorem label_mem_gotos (s : Stmt) (reach : List String) :
    ∀ j ∈ s.jumps reach, j.label ∈ s.gotos := by
  cases s with
  | block body => exact label_mem_gotosAll body _
  | line instrs =>
    intro j h
    obtain ⟨i, hi, hj⟩ := List.mem_flatMap.mp h
    exact List.mem_flatMap.mpr ⟨i, hi, Instr.label_mem_gotos hj⟩
  | label name => exact List.forall_mem_nil _
  | branches conditional otherwise =>
    intro j h
    rcases List.mem_append.mp h with h | h
    · exact List.mem_append_left _ (label_mem_gotosBranches conditional reach j h)
    · refine List.mem_append_right _ ?_
      cases otherwise with
      | none => cases h
      | some body => exact label_mem_gotos body reach j h
  | «while» cond body => exact label_mem_gotos body reach
  | doWhile cond body => exact label_mem_gotos body reach
  | «for» init cond step body =>
    exact fun j h => List.mem_append_right _ (label_mem_gotos body reach j h)
  | «switch» selector parts => exact label_mem_gotosCases parts reach

theorem label_mem_gotosAll (body : List Stmt) (reach : List String) :
    ∀ j ∈ jumps.jumpsAll reach body, j.label ∈ gotos.gotosAll body := by
  cases body with
  | nil => exact List.forall_mem_nil _
  | cons s rest =>
    intro j h
    rcases List.mem_append.mp h with h | h
    · exact List.mem_append_left _ (label_mem_gotos s reach j h)
    · exact List.mem_append_right _ (label_mem_gotosAll rest reach j h)

theorem label_mem_gotosBranches (conditional : List (Expr × Stmt)) (reach : List String) :
    ∀ j ∈ jumps.jumpsBranches reach conditional, j.label ∈ gotos.gotosBranches conditional := by
  match conditional with
  | [] => exact List.forall_mem_nil _
  | (cond, body) :: rest =>
    intro j h
    rcases List.mem_append.mp h with h | h
    · exact List.mem_append_left _ (label_mem_gotos body reach j h)
    · exact List.mem_append_right _ (label_mem_gotosBranches rest reach j h)

theorem label_mem_gotosCases (parts : List (Option Expr × List Stmt)) (reach : List String) :
    ∀ j ∈ jumps.jumpsCases reach parts, j.label ∈ gotos.gotosCases parts := by
  match parts with
  | [] => exact List.forall_mem_nil _
  | (value, body) :: rest =>
    intro j h
    rcases List.mem_append.mp h with h | h
    · exact List.mem_append_left _ (label_mem_gotosAll body _ j h)
    · exact List.mem_append_right _ (label_mem_gotosCases rest reach j h)

end

end Stmt

/-! ## Scopes of the analysis -/

namespace Analysis

/-- Whether a state of the analysis is in the same scope as another one, and has scopes where that
has them. -/
structure Extends (a a' : Analysis) : Prop where
  current : a'.current = a.current
  size : a.scopes.size ≤ a'.scopes.size
  places : ∀ i < a.scopes.size,
    (a'.scopes[i]?).map StaticScope.place = (a.scopes[i]?).map StaticScope.place

/-- Whether the analysis is in a scope inside that of a function, which has the number `i`, and the
labels and the jumps that were found in the function are the given ones, no label twice. -/
structure Inside (a : Analysis) (i : Nat) (labels : List String) (gotos : List Token) : Prop where
  current : ∃ c, a.current = some c ∧ c < a.scopes.size ∧ functionScopeFrom a.scopes c = some i
  scope : ∃ s, a.scopes[i]? = some s ∧ s.labels = labels ∧ s.gotos = gotos
  nodup : labels.Nodup

variable {a a' a'' : Analysis} {i : Nat} {labels : List String} {gotos : List Token}

theorem Extends.refl (a : Analysis) : a.Extends a :=
  ⟨rfl, Nat.le_refl _, fun _ _ => rfl⟩

theorem Extends.trans (h : a.Extends a') (h' : a'.Extends a'') : a.Extends a'' where
  current := h'.current.trans h.current
  size := Nat.le_trans h.size h'.size
  places i hi := (h'.places i (Nat.lt_of_lt_of_le hi h.size)).trans (h.places i hi)

/-- A change of a scope that leaves it where it is. -/
theorem Extends.modify {f : StaticScope → StaticScope} (hf : ∀ s, (f s).place = s.place) (j : Nat) :
    a.Extends { a with scopes := a.scopes.modify j f } := by
  refine ⟨rfl, Nat.le_of_eq (Array.size_modify ..).symm, fun k _ => ?_⟩
  dsimp only
  rw [Array.getElem?_modify]
  split
  · rw [Option.map_map]
    exact congrArg (fun g => (a.scopes[k]?).map g) (funext hf)
  · rfl

namespace Inside

theorem functionScope? (ha : a.Inside i labels gotos) : a.functionScope? = some i := by
  obtain ⟨c, hc, -, hfunction⟩ := ha.current
  rw [Analysis.functionScope?, hc]
  exact hfunction

theorem congr (ha : a.Inside i labels gotos) (h : a.Extends a') {labels' : List String}
    {gotos' : List Token}
    (hscope : ∃ s, a'.scopes[i]? = some s ∧ s.labels = labels' ∧ s.gotos = gotos')
    (hnodup : labels'.Nodup) : a'.Inside i labels' gotos' where
  current := by
    obtain ⟨c, hc, hlt, hfunction⟩ := ha.current
    refine ⟨c, h.current.trans hc, Nat.lt_of_lt_of_le hlt h.size, ?_⟩
    rw [functionScopeFrom_congr c fun j hj => h.places j (Nat.lt_of_le_of_lt hj hlt)]
    exact hfunction
  scope := hscope
  nodup := hnodup

/-- A change of the names in any scope. -/
theorem modifyNames (ha : a.Inside i labels gotos) {f : StaticScope → StaticScope}
    (hf : ∀ s, ∃ names, f s = { s with names }) (j : Nat) :
    Inside { a with scopes := a.scopes.modify j f } i labels gotos := by
  have hplace : ∀ s, (f s).place = s.place := by
    intro s
    obtain ⟨names, h⟩ := hf s
    rw [h]
    rfl
  obtain ⟨s, hs, hlabels, hgotos⟩ := ha.scope
  refine ha.congr (.modify hplace j) ?_ ha.nodup
  dsimp only
  rw [Array.getElem?_modify, hs]
  split
  · obtain ⟨names, h⟩ := hf s
    exact ⟨f s, rfl, h ▸ hlabels, h ▸ hgotos⟩
  · exact ⟨s, rfl, hlabels, hgotos⟩

/-- Labels and jumps are added to the scope of the function. -/
theorem add (ha : a.Inside i labels gotos) (labels' : List String) (gotos' : List Token)
    (hnodup : (labels ++ labels').Nodup) {f : StaticScope → StaticScope}
    (hf : ∀ s, f s = { s with labels := s.labels ++ labels', gotos := s.gotos ++ gotos' }) :
    Inside { a with scopes := a.scopes.modify i f } i (labels ++ labels') (gotos ++ gotos') ∧
      a.Extends { a with scopes := a.scopes.modify i f } := by
  have hextends : a.Extends { a with scopes := a.scopes.modify i f } :=
    .modify (fun s => by rw [hf]; rfl) i
  obtain ⟨s, hs, hlabels, hgotos⟩ := ha.scope
  refine ⟨ha.congr hextends ⟨f s, ?_, ?_, ?_⟩ hnodup, hextends⟩
  · dsimp only
    rw [Array.getElem?_modify, if_pos rfl, hs]
    rfl
  · rw [hf, hlabels]
  · rw [hf, hgotos]

/-- A new scope in the current one, which is not that of a function. -/
theorem push (ha : a.Inside i labels gotos) {kind : ScopeKind} (hkind : kind ≠ .function) :
    Inside { a with
      scopes := a.scopes.push (.opened a.current kind none)
      current := some a.scopes.size } i labels gotos := by
  have hold : ∀ j < a.scopes.size,
      (a.scopes.push (.opened a.current kind none))[j]? = a.scopes[j]? :=
    fun j hj => by rw [Array.getElem?_push, if_neg (Nat.ne_of_lt hj)]
  obtain ⟨c, hc, hlt, hfunction⟩ := ha.current
  obtain ⟨s, hs, hlabels⟩ := ha.scope
  have hi : i < a.scopes.size := (Array.getElem?_eq_some_iff.mp hs).1
  refine ⟨⟨a.scopes.size, rfl, ?_, ?_⟩, ⟨s, (hold i hi).trans hs, hlabels⟩, ha.nodup⟩
  · exact (Array.size_push ..).symm ▸ Nat.lt_succ_self _
  · -- the function is found from the scope around the new one
    have hkind : (StaticScope.opened a.current kind none).kind ≠ .function := hkind
    have hparent : (StaticScope.opened a.current kind none).parent = some c := hc
    rw [functionScopeFrom]
    dsimp only
    rw [Array.getElem?_push_size]
    dsimp only
    rw [if_neg hkind, hparent]
    dsimp only
    rw [if_pos hlt, ← hfunction]
    exact functionScopeFrom_congr c fun j hj => by rw [hold j (Nat.lt_of_le_of_lt hj hlt)]

/-- Back from a new scope to the one around it. -/
theorem pop (ha : a.Inside i labels gotos) {kind : ScopeKind} {labels' : List String}
    {gotos' : List Token} (ha' : a'.Inside i labels' gotos')
    (h : Extends { a with
      scopes := a.scopes.push (.opened a.current kind none)
      current := some a.scopes.size } a') :
    Inside { a' with current := (a'.current.bind (a'.scopes[·]?)).bind (·.parent) }
        i labels' gotos' ∧
      a.Extends { a' with current := (a'.current.bind (a'.scopes[·]?)).bind (·.parent) } := by
  have hparent : (a'.current.bind (a'.scopes[·]?)).bind (·.parent) = a.current := by
    have hplace := h.places a.scopes.size ((Array.size_push ..).symm ▸ Nat.lt_succ_self _)
    dsimp only at hplace
    rw [Array.getElem?_push_size] at hplace
    obtain ⟨s, hs, hplace⟩ := Option.map_eq_some_iff.mp hplace
    rw [h.current, Option.bind_some, hs]
    exact congrArg Prod.fst hplace
  have hextends :
      a.Extends { a' with current := (a'.current.bind (a'.scopes[·]?)).bind (·.parent) } := by
    refine ⟨hparent, ?_, fun j hj => ?_⟩
    · exact Nat.le_trans (Nat.le_of_lt ((Array.size_push ..).symm ▸ Nat.lt_succ_self _)) h.size
    · refine (h.places j ?_).trans ?_
      · exact (Array.size_push ..).symm ▸ Nat.lt_succ_of_lt hj
      · dsimp only
        rw [Array.getElem?_push, if_neg (Nat.ne_of_lt hj)]
  exact ⟨ha.congr hextends ha'.scope ha'.nodup, hextends⟩

end Inside

/-- A new scope of a function. -/
theorem inside_function (a : Analysis) (f : Signature) :
    Inside { a with
      scopes := a.scopes.push (.opened a.current .function (some f))
      current := some a.scopes.size } a.scopes.size [] [] := by
  refine ⟨⟨a.scopes.size, rfl, ?_, ?_⟩, ⟨_, Array.getElem?_push_size, rfl, rfl⟩, .nil⟩
  · exact (Array.size_push ..).symm ▸ Nat.lt_succ_self _
  · rw [functionScopeFrom]
    dsimp only
    rw [Array.getElem?_push_size]
    exact if_pos rfl

end Analysis

namespace Check

variable {α β : Type}

/-! ## Finding labels and jumps -/

/-- A step that finds the given labels and jumps in the function whose scope has the number `i`. -/
def Files (i : Nat) (labels : List String) (gotos : List Token) (x : Check α) : Prop :=
  ∀ a known jumps r a', a.Inside i known jumps → x.exec a = .ok r a' →
    a'.Inside i (known ++ labels) (jumps ++ gotos) ∧ a.Extends a'

variable {i : Nat} {labels labels' : List String} {gotos gotos' : List Token}

theorem Files.bind {x : Check α} {f : α → Check β} (hx : Files i labels gotos x)
    (hf : ∀ r, Files i labels' gotos' (f r)) :
    Files i (labels ++ labels') (gotos ++ gotos') (x >>= f) := by
  intro a known jumps r a' ha h
  obtain ⟨b, t, hb, hr, -⟩ := Traced.exec_bind_eq_ok h
  obtain ⟨ht, hextends⟩ := hx a known jumps b t ha hb
  obtain ⟨ha', hextends'⟩ := hf b t _ _ r a' ht hr
  rw [List.append_assoc, List.append_assoc] at ha'
  exact ⟨ha', hextends.trans hextends'⟩

theorem Steady.files {x : Check α} (hx : Steady x) : Files i [] [] x := by
  intro a known jumps r a' ha h
  obtain ⟨hscopes, hcurrent⟩ := hx.still (fun _ => True) a r a' h fun _ _ _ _ => trivial
  have hextends : a.Extends a' := ⟨hcurrent, hscopes ▸ Nat.le_refl _, fun _ _ => by rw [hscopes]⟩
  rw [List.append_nil, List.append_nil]
  exact ⟨ha.congr hextends (hscopes ▸ ha.scope) ha.nodup, hextends⟩

theorem files_closed (i : Nat) : Closed (Files i [] []) where
  pure r := (steady_pure r).files
  bind := Files.bind
  fail cause pos := (steady_fail cause pos).files
  get := steady_get.files

theorem files_modifyNames (i j : Nat) (f : StaticScope → StaticScope)
    (hf : ∀ s, ∃ names, f s = { s with names }) : Files i [] [] (modifyScope j f) := by
  rintro a known jumps r a' ha ⟨⟩
  rw [List.append_nil, List.append_nil]
  refine ⟨ha.modifyNames hf j, .modify (fun s => ?_) j⟩
  obtain ⟨names, h⟩ := hf s
  rw [h]
  rfl

theorem files_note (i : Nat) (finding : Finding) : Files i [] [] (Traced.note finding) := by
  rintro a known jumps r a' ha ⟨⟩
  rw [List.append_nil, List.append_nil]
  exact ⟨ha, .refl a⟩

/-- There are no labels and no jumps in expressions and declarations. -/
theorem files_typing (i : Nat) (l : List Occurrence) : Typing (Files i [] []) l where
  toClosed := files_closed i
  note := files_note i
  variableType leaf _ := (files_closed i).variableType (files_note i) fun t =>
    (steady_annotate leaf.slot t).files
  literal leaf kind _ := (steady_annotate leaf.slot kind.ctype).files
  resolve name _ := (steady_resolve name).files
  declare := (files_closed i).declare (files_modifyNames i)

/-- A step that ends with an error in one case, and goes on in the other one. -/
theorem Files.reject {c : Prop} [Decidable c] {cause : SemanticCause} {pos : Position}
    {f : α → Check β} {x : Check β} (hx : Files i labels gotos x) :
    Files i labels gotos (if c then failAt cause pos >>= f else x) := by
  split
  · intro a known jumps r a' _ h
    obtain ⟨_, _, h, -, -⟩ := Traced.exec_bind_eq_ok h
    cases h
  · exact hx

/-- What is looked at in a scope of its own. -/
theorem Files.scope (kind : ScopeKind) (hkind : kind ≠ .function) {body : Check Unit}
    (hbody : Files i labels gotos body) :
    Files i labels gotos (do enter kind none; body; leave) := by
  intro a known jumps r a' ha h
  obtain ⟨_, b, henter, h, -⟩ := Traced.exec_bind_eq_ok h
  obtain ⟨_, t, hexec, hleave, -⟩ := Traced.exec_bind_eq_ok h
  cases henter
  cases hleave
  obtain ⟨ht, hextends⟩ := hbody _ known jumps _ t (ha.push hkind) hexec
  exact ha.pop ht hextends

/-- What is looked at in a scope of its own, and what comes after it. -/
theorem Files.scope_bind (kind : ScopeKind) (hkind : kind ≠ .function)
    {body : Check Unit} {rest : Check α} (hbody : Files i labels gotos body)
    (hrest : Files i labels' gotos' rest) :
    Files i (labels ++ labels') (gotos ++ gotos') (do enter kind none; body; leave; rest) := by
  have h := (hbody.scope kind hkind).bind fun _ => hrest
  simpa only [LawfulMonad.bind_assoc] using h

/-! ### Statements -/

theorem files_instr (i : Nat) (instr : Instr) :
    Files i [] (instr.gotos.map (·.token)) (Check.instr instr) := by
  cases instr with
  | goto label =>
    intro a known jumps r a' ha h
    obtain ⟨_, _, hget, h, -⟩ := Traced.exec_bind_eq_ok h
    cases hget
    rw [ha.functionScope?] at h
    cases h
    refine ha.add [] [label.token] ((List.append_nil known).symm ▸ ha.nodup) fun s => ?_
    rw [List.append_nil]
  | _ =>
    exact (files_typing i _).plainInstr _ (fun _ heq => by cases heq) (List.Subset.refl _)

theorem files_label (i : Nat) (name : Leaf) : Files i [name.token.text] [] (label name) := by
  intro a known jumps r a' ha h
  obtain ⟨_, _, hget, h, -⟩ := Traced.exec_bind_eq_ok h
  cases hget
  obtain ⟨s, hs, hlabels, -⟩ := ha.scope
  rw [ha.functionScope?] at h
  dsimp only at h
  rw [hs, Option.map_some, Option.getD_some] at h
  split at h
  · obtain ⟨_, _, h, -, -⟩ := Traced.exec_bind_eq_ok h
    cases h
  · rename_i hnew
    cases h
    refine ha.add [name.token.text] [] ?_ fun s => by rw [List.append_nil]
    rw [hlabels] at hnew
    rw [List.nodup_append]
    refine ⟨ha.nodup, List.pairwise_singleton _ _, ?_⟩
    rintro text htext _ hmem rfl
    exact hnew (List.contains_iff_mem.mpr (List.mem_singleton.mp hmem ▸ htext))

theorem files_instrs (i : Nat) (instrs : List Instr) :
    Files i [] ((instrs.flatMap Instr.gotos).map (·.token)) (instrs.forM Check.instr) := by
  induction instrs with
  | nil => exact (steady_pure ()).files
  | cons instr rest ih =>
    rw [List.flatMap_cons, List.map_append]
    exact (files_instr i instr).bind fun _ => ih

mutual

/-- The analysis of a statement finds the labels in it, and the jumps. -/
theorem files_stmt (i : Nat) (s : Stmt) :
    Files i (s.labels.map (·.token.text)) (s.gotos.map (·.token)) (stmt s) := by
  cases s with
  | block body =>
    rw [stmt]
    exact (files_stmts i body).scope _ (by decide)
  | line instrs =>
    rw [stmt]
    exact files_instrs i instrs
  | label name =>
    rw [stmt]
    exact files_label i name
  | branches conditional otherwise =>
    rw [stmt, Stmt.labels, Stmt.gotos, List.map_append, List.map_append]
    exact (files_branches i conditional).bind fun _ => files_elseBranch i otherwise
  | «while» cond body =>
    have hP := files_typing i cond.occurrences
    rw [stmt]
    refine (hP.exprType cond (List.Subset.refl _)).bind fun t => ?_
    refine (hP.condition t _).bind fun _ => ?_
    exact (files_stmt i body).scope _ (by decide)
  | doWhile cond body =>
    have hP := files_typing i cond.occurrences
    -- The condition comes behind the body, outside of its scope, and has neither labels nor jumps.
    have hcond : Files i [] [] (do condition (← exprType cond) cond.pos) :=
      hP.bind (hP.exprType cond (List.Subset.refl _)) fun t => hP.condition t _
    rw [stmt]
    have h := (files_stmt i body).scope_bind .loop (by decide) hcond
    rwa [List.append_nil, List.append_nil] at h
  | «for» init cond step body =>
    have hrest : Files i (body.labels.map (·.token.text)) (body.gotos.map (·.token)) (do
        loopCondition cond
        loopStep step
        stmt body) := by
      have hcond := (files_typing i _).loopCondition cond (List.Subset.refl _)
      have hstep := (files_typing i _).loopStep step (List.Subset.refl _)
      exact hcond.bind fun _ => hstep.bind fun _ => files_stmt i body
    rw [stmt, Stmt.gotos, List.map_append]
    cases init with
    | none =>
      have h := hrest.scope .loop (by decide)
      simp only [LawfulMonad.bind_assoc] at h
      exact h
    | some instr =>
      have h := ((files_instr i instr).bind fun _ => hrest).scope .loop (by decide)
      simp only [LawfulMonad.bind_assoc] at h
      rw [Option.toList_some, List.flatMap_singleton]
      exact h
  | «switch» selector parts =>
    rw [stmt]
    refine ((files_typing i _).exprType selector (List.Subset.refl _)).bind fun t => ?_
    exact .reject (.reject ((files_cases i parts).scope _ (by decide)))

theorem files_stmts (i : Nat) (body : List Stmt) :
    Files i ((Stmt.labels.labelsAll body).map (·.token.text))
      ((Stmt.gotos.gotosAll body).map (·.token)) (stmt.stmts body) := by
  cases body with
  | nil =>
    rw [stmt.stmts]
    exact (steady_pure ()).files
  | cons s rest =>
    rw [stmt.stmts, Stmt.labels.labelsAll, Stmt.gotos.gotosAll, List.map_append, List.map_append]
    exact (files_stmt i s).bind fun _ => files_stmts i rest

theorem files_branches (i : Nat) (conditional : List (Expr × Stmt)) :
    Files i ((Stmt.labels.labelsBranches conditional).map (·.token.text))
      ((Stmt.gotos.gotosBranches conditional).map (·.token)) (stmt.branches conditional) := by
  match conditional with
  | [] =>
    rw [stmt.branches]
    exact (steady_pure ()).files
  | (cond, body) :: rest =>
    have hP := files_typing i cond.occurrences
    rw [stmt.branches, Stmt.labels.labelsBranches, Stmt.gotos.gotosBranches, List.map_append,
      List.map_append]
    refine (hP.exprType cond (List.Subset.refl _)).bind fun t => ?_
    refine (hP.condition t _).bind fun _ => ?_
    exact (files_stmt i body).scope_bind _ (by decide) (files_branches i rest)

theorem files_elseBranch (i : Nat) (otherwise : Option Stmt) :
    Files i ((Stmt.labels.labelsElse otherwise).map (·.token.text))
      ((Stmt.gotos.gotosElse otherwise).map (·.token)) (stmt.elseBranch otherwise) := by
  match otherwise with
  | none =>
    rw [stmt.elseBranch]
    exact (steady_pure ()).files
  | some body =>
    rw [stmt.elseBranch]
    exact (files_stmt i body).scope _ (by decide)

theorem files_cases (i : Nat) (parts : List (Option Expr × List Stmt)) :
    Files i ((Stmt.labels.labelsCases parts).map (·.token.text))
      ((Stmt.gotos.gotosCases parts).map (·.token)) (stmt.cases parts) := by
  match parts with
  | [] =>
    rw [stmt.cases]
    exact (steady_pure ()).files
  | (value, body) :: rest =>
    have hlabel := (files_typing i _).caseLabel value (List.Subset.refl _)
    rw [stmt.cases, Stmt.labels.labelsCases, Stmt.gotos.gotosCases, List.map_append,
      List.map_append]
    refine hlabel.bind fun _ => ?_
    exact (files_stmts i body).scope_bind _ (by decide) (files_cases i rest)

end

/-! ### Functions -/

/-- Whether all labels have different names, and all jumps go to one of them. -/
structure Resolved (labels gotos : List Leaf) : Prop where
  nodup : (labels.map (·.token.text)).Nodup
  mem : ∀ goto ∈ gotos, goto.token.text ∈ labels.map (·.token.text)

/-- Jumps are accepted only if all of them go to known labels. -/
theorem mem_of_resolveGotos {labels : List String} {gotos : List Token} {a a' : Analysis}
    (h : (resolveGotos labels gotos).exec a = .ok () a') : ∀ goto ∈ gotos, goto.text ∈ labels := by
  induction gotos with
  | nil => exact List.forall_mem_nil _
  | cons goto rest ih =>
    rw [resolveGotos] at h
    split at h
    · rename_i hgoto
      exact List.forall_mem_cons.mpr ⟨List.contains_iff_mem.mp hgoto, ih h⟩
    · cases h

/-- The body of a function is accepted only if its jumps go to labels in it. -/
theorem resolved_of_functionBody {f : Signature} {body : List Stmt} {a a' : Analysis}
    (h : (functionBody f body).exec a = .ok () a') :
    Resolved (Stmt.labels.labelsAll body) (Stmt.gotos.gotosAll body) := by
  rw [functionBody_eq] at h
  obtain ⟨_, b, henter, h, -⟩ := Traced.exec_bind_eq_ok h
  obtain ⟨_, c, h, -, -⟩ := Traced.exec_bind_eq_ok h
  obtain ⟨_, d, hparams, h, -⟩ := Traced.exec_bind_eq_ok h
  obtain ⟨_, e, hbody, hgotos, -⟩ := Traced.exec_bind_eq_ok h
  cases henter
  have hP := files_typing a.scopes.size []
  have hdeclares : Files a.scopes.size [] [] (f.params.forM declare) :=
    hP.forM fun v _ => hP.declare v
  obtain ⟨hd, hextends⟩ := hdeclares _ [] [] _ d (a.inside_function f) hparams
  obtain ⟨he, hextends'⟩ := files_stmt _ (.block body) d _ _ _ e hd hbody
  obtain ⟨s, hs, hlabels, hjumps⟩ := he.scope
  have hcurrent : e.current = some a.scopes.size := (hextends.trans hextends').current
  obtain ⟨_, _, hget, hgotos, -⟩ := Traced.exec_bind_eq_ok hgotos
  cases hget
  rw [hcurrent, Option.bind_some, hs] at hgotos
  have hmem := mem_of_resolveGotos hgotos
  rw [hlabels, hjumps] at hmem
  exact ⟨he.nodup, fun goto hgoto => hmem _ (List.mem_map_of_mem hgoto)⟩

end Check

/-- In an accepted program, all labels of a function have different names, and all jumps in it go to
one of them. -/
theorem Program.resolved_of_accepted {p : Program} (haccepted : p.Accepted) {returnType : TypeName}
    {name : Leaf} {params : List Declarator} {body : List Stmt}
    (hitem : .function returnType name params body ∈ p.items) :
    Check.Resolved (Stmt.labels.labelsAll body) (Stmt.gotos.gotosAll body) := by
  obtain ⟨a, a', h⟩ := Check.exists_exec_item haccepted _ hitem
  obtain ⟨f, b, -, hbody, -⟩ := Traced.exec_bind_eq_ok h
  exact Check.resolved_of_functionBody hbody

end MiniC
