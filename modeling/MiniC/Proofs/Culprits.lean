import MiniC.Proofs.Culprits.Quiet
import MiniC.Proofs.Culprits.Steps
import MiniC.Proofs.Jumps

set_option autoImplicit false

/-! # Faults are where they arise

A fault that ends a run while a function is executed arises in an instruction, in an expression that
decides how a statement goes on, or where parameters get their values. A fault in an instruction is
at one of its tokens, however many calls are open. An expression that decides how a statement goes on
may leave its fault without a place, and then the fault gets the place of the instruction that called
the function, if there is one. -/

namespace MiniC

/-! ## Culprits -/

/-- The tokens of an instruction. -/
def Instr.tokens (i : Instr) : List Token :=
  i.first?.toList ++ i.occurrences.flatMap Occurrence.tokens

/-- The tokens of a piece of a statement. -/
def Piece.tokens : Piece → List Token
  | .instr i => i.tokens
  | .condition i => i.tokens
  | .value i => i.tokens
  | .case _ label => label.occurrences.flatMap Occurrence.tokens

/-- Where a fault arises. -/
inductive Culprit
  /-- In a piece of a statement. -/
  | piece (p : Piece)
  /-- Where the parameters of a function get their values. -/
  | parameters (ds : List Declarator)

namespace Culprit

/-- The tokens of a culprit; those of parameters are the tokens with which they begin. -/
def tokens : Culprit → List Token
  | .piece p => p.tokens
  | .parameters ds => ds.map (·.type.first)

/-- Whether a culprit is an instruction. -/
def isInstr : Culprit → Bool
  | .piece p => !p.isControl
  | .parameters _ => false

/-- Whether a culprit is at the place of its fault: one of its tokens is, and only instructions need
to have a place. -/
structure Places (c : Culprit) (pos : Option Position) : Prop where
  within : ∀ q ∈ pos, ∃ token ∈ c.tokens, token.pos = q
  isSome : c.isInstr → pos.isSome

end Culprit

namespace Run

variable {known : Nat → Option CType} {fuel : Nat}

/-- Whether a call of `f` that begins in the state `m` comes to its last piece in the state `t`. -/
def LastPiece (known : Nat → Option CType) (fuel : Nat) (f : FunctionDef) (args : List Value)
    (m : Machine) (piece : Piece) (t : Machine) : Prop :=
  ∃ step, (Course.call known fuel f args).LastStep (m.enterCall f.name) step t ∧ piece.IsStep step

/-- Whether a call of `f` that begins in the state `m` goes wrong inside because of a fault that
arises in a culprit, with the place that it has there. The fault arises in the call's own last piece
if that stops with it although no call says what goes wrong inside; it arises in a call that the last
piece makes if that one goes wrong inside. -/
inductive Blames (known : Nat → Option CType) :
    Nat → FunctionDef → List Value → Machine → Culprit → Fault → Option Position → Prop
  | own {fuel f args m piece t cause raised u}
      (last : LastPiece known fuel f args m piece t)
      (exec : (piece.run (.telling known fuel)).exec t = .error (.fault cause raised) u)
      (quiet : (piece.run (.quiet known fuel)).exec t = .error (.fault cause raised) u) :
      Blames known (fuel + 1) f args m (.piece piece) cause raised
  | jump {fuel f args m label t u}
      (last : LastPiece known fuel f args m (.instr (.goto label)) t)
      (left : (inside known fuel f args).exec (m.enterCall f.name) =
        .ok (.goto label.token) u) :
      Blames known (fuel + 1) f args m (.piece (.instr (.goto label)))
        (.missingLabel label.token.text) (some label.token.pos)
  | parameters {fuel f args m cause raised u}
      (exec : (bindParams known f.params args).exec (m.enterCall f.name) =
        .error (.fault cause raised) u) :
      Blames known (fuel + 1) f args m (.parameters f.params) cause raised
  | call {fuel f args m piece t site pos u culprit cause raised}
      (last : LastPiece known fuel f args m piece t)
      (quiet : (piece.run (.quiet known fuel)).exec t = .error .unfinished u)
      (wrong : GoesWrongIn known fuel (piece.run (.telling known fuel)) t site
        (.fault cause pos) u)
      (blames : Blames known fuel site.f site.args site.state culprit cause raised) :
      Blames known (fuel + 1) f args m culprit cause raised

/-- Whether a call of `f` that begins in the state `m` goes wrong inside because of a fault that
arises in a culprit and is at its place; the call may add a place where there is none. -/
def HasCulprit (known : Nat → Option CType) (fuel : Nat) (f : FunctionDef) (args : List Value)
    (m : Machine) (cause : Fault) (pos : Option Position) : Prop :=
  ∃ culprit raised, Blames known fuel f args m culprit cause raised ∧ culprit.Places raised ∧
    ∀ q ∈ raised, q ∈ pos

/-! ## Pieces -/

theorem placedAt_tokens (l : List Occurrence) :
    PlacedAt (fun q => ∃ token ∈ l.flatMap Occurrence.tokens, token.pos = q) l :=
  fun _ ho token htoken => ⟨token, List.mem_flatMap_of_mem ho htoken, rfl⟩

theorem placedAt_instr (i : Instr) :
    PlacedAt (fun q => ∃ token ∈ i.tokens, token.pos = q) i.occurrences := by
  intro o ho token htoken
  exact ⟨token, List.mem_append_right _ (List.mem_flatMap_of_mem ho htoken), rfl⟩

theorem mem_tokens_of_pos? (i : Instr) : ∀ q ∈ i.pos?, ∃ token ∈ i.tokens, token.pos = q := by
  intro q hq
  obtain ⟨token, htoken, rfl⟩ := Option.map_eq_some_iff.mp hq
  exact ⟨token, List.mem_append_left _ (Option.mem_toList.mpr htoken), rfl⟩

theorem Quietens.stops {α : Type} {T : Position → Prop} {x x' : Run α}
    (hx : Quietens known fuel T x x') {m u : Machine} {cause : Fault} {pos : Option Position}
    (h : x.exec m = .error (.fault cause pos) u) :
    (x'.exec m = .error (.fault cause pos) u ∧ ∀ q ∈ pos, T q) ∨
      ∃ site, x'.exec m = .error .unfinished u ∧
        GoesWrongIn known fuel x m site (.fault cause pos) u := by
  rcases hx m with ⟨hsame, hplaced⟩ | ⟨stop, t, site, hexec, hquiet, hwrong⟩
  · refine .inl ⟨hsame.trans h, fun q hq => ?_⟩
    rw [hq] at h
    exact hplaced cause q u h
  · rw [h] at hexec
    cases hexec
    exact .inr ⟨site, hquiet, hwrong⟩

/-- A piece that is no instruction of its own may leave its faults without a place. -/
theorem quietens_piece {piece : Piece} (hcontrol : piece.isControl) :
    Quietens known fuel (fun q => ∃ token ∈ piece.tokens, token.pos = q)
      (piece.run (.telling known fuel)) (piece.run (.quiet known fuel)) := by
  cases piece with
  | instr i => cases hcontrol
  | condition i =>
    have hvalue : Quietens known fuel _ (instrValue _ i) (instrValue _ i) :=
      quietens_instrValue (placedAt_instr i) (mem_tokens_of_pos? i)
    exact (hvalue.andThen fun v => placeless_faultsAt.truth v).andThen fun _ => .pure _
  | value i =>
    have hvalue : Quietens known fuel _ (instrValue _ i) (instrValue _ i) :=
      quietens_instrValue (placedAt_instr i) (mem_tokens_of_pos? i)
    exact hvalue.andThen fun _ => .pure _
  | case selector label =>
    have hlabel : Quietens known fuel _ (eval _ label) (eval _ label) :=
      quietens_eval label (placedAt_tokens label.occurrences)
    exact (hlabel.andThen fun v => .lift _).andThen fun _ => .pure _

/-- An instruction gives its place to a fault that has none. -/
theorem exec_located_eq_fault {α : Type} {x : Run α} {at? pos : Option Position} {m u : Machine}
    {cause : Fault} (h : (located at? x).exec m = .error (.fault cause pos) u) :
    ∃ raised, x.exec m = .error (.fault cause raised) u ∧ pos = raised.or at? := by
  simp only [located, Traced.mapError] at h
  cases hexec : x.exec m with
  | ok a t =>
    rw [hexec] at h
    cases h
  | error stop t =>
    rw [hexec] at h
    cases stop with
    | fault cause' raised =>
      cases raised with
      | none =>
        cases h
        exact ⟨none, rfl, rfl⟩
      | some q =>
        cases h
        exact ⟨some q, rfl, rfl⟩
    | _ => cases h

theorem exec_discard_eq_error {α : Type} {x : Run α} {m u : Machine} {stop : Stop} :
    (x >>= fun _ => pure ()).exec m = .error stop u ↔ x.exec m = .error stop u := by
  cases hexec : x.exec m with
  | ok a t =>
    rw [Traced.exec_bind_of_ok _ hexec]
    exact iff_of_false nofun nofun
  | error stop' t =>
    rw [Traced.exec_bind_of_error _ hexec]
    exact ⟨fun h => by cases h; rfl, fun h => by cases h; rfl⟩

/-- An instruction without a place cannot fail. -/
theorem isSome_pos?_of_fails {ctx : Context} {i : Instr} {m u : Machine} {stop : Stop}
    (h : (bareInstr ctx i).exec m = .error stop u) : i.pos?.isSome := by
  cases i with
  | «return» value =>
    cases value with
    | none => cases h
    | some e => rfl
  | _ => rfl

/-- A piece that stops because of a fault does so by itself, or goes wrong inside a function that it
calls; it leaves a place that the fault has there as it is. -/
theorem stops_of_piece {piece : Piece} {m u : Machine} {cause : Fault} {pos : Option Position}
    (h : (piece.run (.telling known fuel)).exec m = .error (.fault cause pos) u) :
    ((piece.run (.quiet known fuel)).exec m = .error (.fault cause pos) u ∧
        (Culprit.piece piece).Places pos) ∨
      ∃ site raised, (piece.run (.quiet known fuel)).exec m = .error .unfinished u ∧
        GoesWrongIn known fuel (piece.run (.telling known fuel)) m site (.fault cause raised) u ∧
        ∀ q ∈ raised, q ∈ pos := by
  by_cases hcontrol : piece.isControl
  · rcases (quietens_piece hcontrol).stops h with ⟨hquiet, hwithin⟩ | ⟨site, hquiet, hwrong⟩
    · refine .inl ⟨hquiet, hwithin, fun hinstr => ?_⟩
      rw [Culprit.isInstr, hcontrol] at hinstr
      cases hinstr
    · exact .inr ⟨site, pos, hquiet, hwrong, fun q hq => hq⟩
  · cases piece with
    | instr i =>
      -- The fault of an instruction may have come without a place; it then gets that of the
      -- instruction.
      obtain ⟨raised, hbare, rfl⟩ := exec_located_eq_fault (exec_discard_eq_error.mp h)
      have hplaced : Quietens known fuel _ (bareInstr _ i) (bareInstr _ i) :=
        quietens_bareInstr (placedAt_instr i)
      rcases hplaced.stops hbare with ⟨hquiet, hwithin⟩ | ⟨site, hquiet, hwrong⟩
      · refine .inl ⟨exec_discard_eq_error.mpr ?_, ?_, fun _ => ?_⟩
        · exact (exec_mapError_of_error _ hquiet).trans (by cases raised <;> rfl)
        · cases raised with
          | none => exact mem_tokens_of_pos? i
          | some q => exact hwithin
        · rw [Option.isSome_or, isSome_pos?_of_fails hbare, Bool.or_true]
      · refine .inr ⟨site, raised, exec_discard_eq_error.mpr (exec_mapError_of_error _ hquiet),
          ⟨hwrong.exec, hwrong.quiet, ?_⟩, fun q hq => ?_⟩
        · have hinstr : (instr (.telling known fuel) i).exec m = .error _ u :=
            exec_mapError_of_error _ hbare
          rw [Piece.run, Traced.trace_bind_of_error _ hinstr]
          exact hwrong.trace
        · rw [Option.mem_def.mp hq]
          exact rfl
    | _ => exact absurd rfl hcontrol

/-! ## Calls -/

theorem faultsAt_bindParams {T : Position → Prop} {ds : List Declarator}
    (hds : ∀ d ∈ ds, T d.pos) (args : List Value) : FaultsAt T (bindParams known ds args) := by
  induction ds generalizing args with
  | nil => exact .pure _
  | cons d ds ih =>
    cases args with
    | nil => exact .pure _
    | cons v args =>
      have hd : T d.pos := hds d List.mem_cons_self
      refine ((faultsAt_resolve known hd).bind fun _ => .pure _).bind fun t => ?_
      refine (faultsAt_convert t v (forall_mem_some hd)).bind fun v => ?_
      refine (faultsAt_introduce d.name t v).bind fun _ => ?_
      exact ih (fun d' hd' => hds d' (List.mem_cons_of_mem _ hd')) args

theorem exec_course_call (known : Nat → Option CType) (fuel : Nat) (f : FunctionDef)
    (args : List Value) : (Course.call known fuel f args).exec = (inside known fuel f args).exec :=
  (Course.exec_call fuel known f args).trans (Activity.exec_call_inside known fuel f args)

/-- A call that goes wrong inside because of a fault does so where its parameters get their values,
or in its last piece. -/
theorem lastPiece_of_inside {f : FunctionDef} {args : List Value} {m u : Machine} {cause : Fault}
    {pos : Option Position}
    (h : (inside known fuel f args).exec (m.enterCall f.name) = .error (.fault cause pos) u) :
    (bindParams known f.params args).exec (m.enterCall f.name) = .error (.fault cause pos) u ∨
      ∃ piece t u', LastPiece known fuel f args m piece t ∧
        (piece.run (.telling known fuel)).exec t = .error (.fault cause pos) u' := by
  cases hbind : (bindParams known f.params args).exec (m.enterCall f.name) with
  | error stop t =>
    rw [inside, Traced.exec_bind_of_error _ hbind] at h
    cases h
    exact .inl rfl
  | ok a t =>
    rw [inside, Traced.exec_bind_of_ok _ hbind, ← Course.exec_stmt _ fuel []] at h
    obtain ⟨step, s, piece, ⟨before, after, htrace, hafter⟩, hstep, u', hpiece⟩ :=
      Course.stopsInStep_stmt fuel [] (.block f.body) t cause pos u h
    refine .inr ⟨piece, s, u', ⟨step, ⟨before, after, ?_, hafter⟩, hstep⟩, hpiece⟩
    have hsilent : (Course.silent (bindParams known f.params args)).exec (m.enterCall f.name) =
        .ok a t := hbind
    rw [Course.call, Traced.trace_bind_of_ok _ hsilent, htrace]
    rfl

theorem hasCulprit_of_inside {f : FunctionDef} {args : List Value} {m u : Machine} {cause : Fault}
    {pos : Option Position}
    (hcall : ∀ (site : CallSite) (t : Machine) (raised : Option Position),
      (call known fuel site.f site.args site.pos).exec site.state =
        .error (.fault cause raised) t →
      (quietCall known fuel site.f site.args site.pos).exec site.state = .error .unfinished t →
      HasCulprit known fuel site.f site.args site.state cause raised)
    (h : (inside known fuel f args).exec (m.enterCall f.name) = .error (.fault cause pos) u) :
    HasCulprit known (fuel + 1) f args m cause pos := by
  rcases lastPiece_of_inside h with hbind | ⟨piece, t, u', hlast, hpiece⟩
  · refine ⟨_, pos, .parameters hbind, ⟨?_, nofun⟩, fun r hr => hr⟩
    intro q hq
    rw [Option.mem_def.mp hq] at hbind
    have hplaced : FaultsAt (fun q => ∃ token ∈ (Culprit.parameters f.params).tokens, token.pos = q)
        (bindParams known f.params args) :=
      faultsAt_bindParams (fun d hd => ⟨d.type.first, List.mem_map_of_mem hd, rfl⟩) args
    exact hplaced _ cause q u hbind
  · rcases stops_of_piece hpiece with ⟨hquiet, hplaces⟩ | ⟨site, raised, hquiet, hwrong, hraised⟩
    · exact ⟨.piece piece, pos, .own hlast hpiece hquiet, hplaces, fun r hr => hr⟩
    · obtain ⟨culprit, q, hblames, hplaces, hq⟩ := hcall site u' raised hwrong.exec hwrong.quiet
      refine ⟨culprit, q, .call hlast hquiet hwrong hblames, hplaces, fun r hr => ?_⟩
      exact hraised r (hq r hr)

theorem hasCulprit_of_jump {f : FunctionDef} {args : List Value} {m u : Machine} {label : Token}
    (h : (inside known fuel f args).exec (m.enterCall f.name) = .ok (.goto label) u) :
    HasCulprit known (fuel + 1) f args m (.missingLabel label.text) (some label.pos) := by
  have hcourse := h
  rw [← exec_course_call] at hcourse
  obtain ⟨j, hj, rfl⟩ :=
    (Course.guides_call known fuel f args (m.enterCall f.name)).left label u hcourse
  obtain ⟨t, ht⟩ := Course.exists_lastStep hj
  refine ⟨_, _, .jump ⟨_, ht, rfl⟩ h, ⟨?_, fun _ => rfl⟩, fun q hq => hq⟩
  exact mem_tokens_of_pos? (.goto j.label)

/-- A call goes wrong because of a culprit if something goes wrong inside, so that it has another
result if it says nothing about that. -/
theorem hasCulprit_of_call {cause : Fault} {site : CallSite} {t : Machine}
    {raised : Option Position}
    (h : (call known fuel site.f site.args site.pos).exec site.state =
      .error (.fault cause raised) t)
    (hquiet : (quietCall known fuel site.f site.args site.pos).exec site.state =
      .error .unfinished t) :
    HasCulprit known fuel site.f site.args site.state cause raised := by
  induction fuel generalizing site t raised with
  | zero => cases h
  | succ fuel ih =>
    obtain ⟨f, args, pos, m⟩ := site
    dsimp only at h hquiet ⊢
    by_cases hbegins : args.length = f.params.length ∧ m.depth < maxDepth
    · obtain ⟨hcall, hquietCall⟩ := exec_call_of_begins known fuel pos hbegins.1 hbegins.2
      cases hin : (inside known fuel f args).exec (m.enterCall f.name) with
      | error stop u =>
        rw [h, Traced.exec_bind_of_error _ (exec_inCall_of_error _ hin)] at hcall
        cases hcall
        exact hasCulprit_of_inside (fun _ _ _ => ih) hin
      | ok signal u =>
        have hleft := exec_inCall_of_ok f.name hin
        rw [h, Traced.exec_bind_of_ok _ hleft] at hcall
        rw [hquiet, Traced.exec_bind_of_ok _ (exec_mapError_of_ok _ hleft)] at hquietCall
        cases signal with
        | goto label =>
          cases hcall
          exact hasCulprit_of_jump hin
        | _ =>
          -- Both runs go on in the same way, but one tells and one does not.
          have hsame := hcall.trans hquietCall.symm
          cases hsame
    -- A call that does not begin goes wrong by itself, which the quiet run tells as well.
    · obtain ⟨cause', -, hquiet'⟩ := exec_call_of_not_begins known fuel pos hbegins
      rw [hquiet'] at hquiet
      cases hquiet

end Run

/-! ## Programs -/

namespace Program

open Run (inside call mainFunction? HasCulprit)

variable {p : Program} {known : Nat → Option CType} {fuel : Nat} {f : FunctionDef} {m : Machine}

/-- Registers the pieces of a program. -/
def register (p : Program) (known : Nat → Option CType) (fuel : Nat) : Run Unit :=
  p.items.forM (Run.item (.telling known fuel))

/-- Whether a run of a program calls `f` as the main function, in the state `m`. -/
def Starts (p : Program) (known : Nat → Option CType) (fuel : Nat) (f : FunctionDef)
    (m : Machine) : Prop :=
  ∃ t, (p.register known fuel).exec .start = .ok () t ∧
    mainFunction? t.functions = some f ∧ m = { t with events := t.events.push .started }

/-- Whether the body of the main function comes to its end, and no jump leaves it. -/
def EndsMain (known : Nat → Option CType) : Nat → FunctionDef → Machine → Prop
  | 0, _, _ => False
  | fuel + 1, f, m =>
    ∃ signal t, (inside known fuel f []).exec (m.enterCall f.name) = .ok signal t ∧
      ∀ label, signal ≠ .goto label

/-- What a run does after its main function is known. -/
theorem Starts.exec_program (h : p.Starts known fuel f m) :
    (Run.program known fuel p).exec .start =
      (call known fuel f [] p.pos? >>= fun _ => pure ()).exec m := by
  obtain ⟨t, hregister, hmain, rfl⟩ := h
  have hitems : (p.items.forM (Run.item ⟨known, call known fuel⟩)).exec .start = .ok () t :=
    hregister
  rw [Run.program, Traced.exec_bind_of_ok _ hitems,
    Traced.exec_bind_of_ok _ (Traced.exec_get t), hmain]
  rfl

theorem Starts.params_eq_nil (h : p.Starts known fuel f m) : f.params = [] := by
  obtain ⟨t, -, hmain, -⟩ := h
  have hfound := List.find?_some hmain
  simp only [Bool.and_eq_true, List.isEmpty_iff] at hfound
  exact hfound.2

/-- The pieces of a program are registered outside of all calls. -/
theorem Starts.depth_eq_zero (h : p.Starts known fuel f m) : m.depth = 0 := by
  obtain ⟨t, hregister, -, rfl⟩ := h
  have hP := Run.composed_bracketed.context known fuel
  have hbracketed : Run.Bracketed (p.register known fuel) :=
    hP.forM fun i _ => hP.item Run.composed_bracketed.defines i
      (fun name fields _ => hP.structDecl Run.composed_bracketed.declares name fields)
      fun _ _ _ _ _ _ => trivial
  have hdepth := (hbracketed.restoresScopes .start).depth
  rw [Traced.after_of_ok hregister] at hdepth
  exact hdepth

theorem exec_of_run_eq_error {stop : Stop} (h : (p.run known fuel).1 = .error stop) :
    ∃ t, (Run.program known fuel p).exec .start = .error stop t := by
  unfold run at h
  cases hexec : (Run.program known fuel p).exec .start with
  | ok _ t =>
    rw [hexec] at h
    cases h
  | error stop' t =>
    rw [hexec] at h
    cases h
    exact ⟨t, rfl⟩

/-- A fault that ends a run while a function is executed arises in an instruction, in an expression
that decides how a statement goes on, or where parameters get their values. In an instruction it is
at one of the instruction's own tokens. Elsewhere it may have no place, and then it gets one from
the instructions whose calls are open, if there are any. -/
theorem faults_have_culprits (hstarts : p.Starts known fuel f m) {cause : Fault}
    {pos : Option Position} (hrun : (p.run known fuel).1 = .error (.fault cause pos))
    (hends : ¬EndsMain known fuel f m) : HasCulprit known fuel f [] m cause pos := by
  obtain ⟨u, hexec⟩ := exec_of_run_eq_error hrun
  rw [hstarts.exec_program, Run.exec_discard_eq_error] at hexec
  cases fuel with
  | zero => cases hexec
  | succ fuel =>
    have hargs : ([] : List Value).length = f.params.length :=
      congrArg List.length hstarts.params_eq_nil.symm
    have hdepth : m.depth < Run.maxDepth := by
      rw [hstarts.depth_eq_zero]
      decide
    obtain ⟨hcall, -⟩ := Run.exec_call_of_begins known fuel p.pos? hargs hdepth
    rw [hexec] at hcall
    cases hin : (inside known fuel f []).exec (m.enterCall f.name) with
    | error stop t =>
      rw [Traced.exec_bind_of_error _ (Run.exec_inCall_of_error _ hin)] at hcall
      cases hcall
      exact Run.hasCulprit_of_inside (fun _ _ _ => Run.hasCulprit_of_call) hin
    | ok signal t =>
      rw [Traced.exec_bind_of_ok _ (Run.exec_inCall_of_ok _ hin)] at hcall
      cases signal with
      | goto label =>
        cases hcall
        exact Run.hasCulprit_of_jump hin
      | _ => exact absurd ⟨_, t, hin, nofun⟩ hends

/-- The state in which a run of a program calls its main function. -/
def mainState (p : Program) (known : Nat → Option CType) (fuel : Nat) : Machine :=
  let t := (p.register known fuel).after .start
  { t with events := t.events.push .started }

theorem exists_starts (hregister : (p.register known (fuel + 1)).error? .start = none)
    (hmain : ∃ f ∈ mainFunction? (p.mainState known (fuel + 1)).functions,
      ((inside known fuel f []).error?
        ((p.mainState known (fuel + 1)).enterCall f.name)).isSome) :
    ∃ f m, p.Starts known (fuel + 1) f m ∧ ¬EndsMain known (fuel + 1) f m := by
  obtain ⟨a, hexec⟩ := Traced.exists_exec_of_error?_eq_none hregister
  obtain ⟨f, hf, hfails⟩ := hmain
  obtain ⟨stop, hstop⟩ := Option.isSome_iff_exists.mp hfails
  obtain ⟨u, hinside⟩ := Traced.exists_exec_of_error? hstop
  refine ⟨f, _, ⟨_, hexec, hf, rfl⟩, ?_⟩
  rintro ⟨signal, t, hends, -⟩
  cases hinside.symm.trans hends

/-- A run whose main function makes a call that goes wrong inside. -/
theorem faults_have_culprits_dividing :
    ∃ f m, dividing.Starts (fun _ => none) 100 f m ∧ ¬EndsMain (fun _ => none) 100 f m ∧
      (dividing.run (fun _ => none) 100).1 = .error (.fault .divisionByZero (some ⟨1, 21⟩)) ∧
      HasCulprit (fun _ => none) 100 f [] m .divisionByZero (some ⟨1, 21⟩) := by
  have hrun : (dividing.run (fun _ => none) 100).1 =
      .error (.fault .divisionByZero (some ⟨1, 21⟩)) := by decide +kernel
  obtain ⟨f, m, hstarts, hends⟩ := exists_starts (by decide +kernel :
    (dividing.register (fun _ => none) 100).error? .start = none) (by decide +kernel)
  exact ⟨f, m, hstarts, hends, hrun, faults_have_culprits hstarts hrun hends⟩

/-! ## A condition without a place -/

/-- The program `int main(){while (1/0) ; return 0;}`. -/
def spinning : Program where
  items := [
    .function (sampleInt 1 0) (sampleName "main" 2 5 1) []
      [.while (.binary (.arith .div) (sampleNumber "1" 7 19 2) (sampleNumber "0" 9 21 3)) (.line []),
       .line [.return (some (sampleNumber "0" 9 33 4))]]]

/-- A fault in the condition of a loop of the main function has no place. -/
theorem not_faults_located :
    spinning.Accepted ∧
      ¬∀ (p : Program) known fuel f m, p.Accepted → p.Starts known fuel f m →
        ¬EndsMain known fuel f m → ∀ cause pos,
          (p.run known fuel).1 = .error (.fault cause pos) → pos.isSome := by
  have haccepted : spinning.Accepted := by
    unfold Accepted
    cbv
  have hrun : (spinning.run (fun _ => none) 100).1 = .error (.fault .divisionByZero none) := by
    decide +kernel
  obtain ⟨f, m, hstarts, hends⟩ := exists_starts (by decide +kernel :
    (spinning.register (fun _ => none) 100).error? .start = none) (by decide +kernel)
  refine ⟨haccepted, fun hall => ?_⟩
  exact Bool.noConfusion (hall spinning _ 100 f m haccepted hstarts hends _ _ hrun)

end Program

end MiniC
