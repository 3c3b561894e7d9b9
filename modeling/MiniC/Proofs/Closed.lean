import MiniC.Proofs.Faults
import MiniC.Proofs.Fields
import MiniC.Proofs.Trace
import MiniC.Run.Expr
import MiniC.Run.Initialize

set_option autoImplicit false

/-! # Properties of the steps that leave scopes alone

Most steps of a run make and copy values, read and write slots, and compute: they make buffers and
change what is in them, but no variable comes or goes. What holds of the few primitive steps behind
them, and is kept when runs are put together, holds of all of them; it is proved of them once, for
any such property. -/

namespace MiniC

namespace Machine

/-- Whether a state differs from another one at most in its struct values, of which none was lost,
output and events. -/
def Beside (m m' : Machine) : Prop :=
  ∃ records output events, m.records.all.size ≤ records.all.size ∧
    m' = { m with records, output, events }

/-- Whether what is made of a state does not depend on its scopes and events. -/
def ScopeFree {α : Type} (f : Machine → α) : Prop :=
  ∀ m frames current events, f { m with frames, current, events } = f m

end Machine

namespace Run

/-! ## Closed properties -/

/-- Whether the stop for bad bounds has a property unless something holds. -/
def StopsUnless (P : ∀ {α : Type}, Run α → Prop) (c : Prop) : Prop :=
  ¬c → ∀ {α : Type}, P (throw .badBounds : Run α)

theorem StopsUnless.imp {P : ∀ {α : Type}, Run α → Prop} {c c' : Prop} (h : StopsUnless @P c)
    (hc : c → c') : StopsUnless @P c' :=
  fun hn => h (mt hc hn)

/-- A property that is kept when runs are put together, and that holds of the primitive steps that
make buffers without an owner and change what is in buffers and beside them, and of their stops at
no known place. What such a step reads is in the state outside its scopes, and so is what it
changes. A run is stopped for bad bounds only where the bounds in its struct table do not fit. -/
structure Placeless (P : ∀ {α : Type}, Run α → Prop) : Prop where
  pure : ∀ {α : Type} (a : α), P (pure a : Run α)
  bind : ∀ {α β : Type} {x : Run α} {f : α → Run β}, P x → (∀ a, P (f a)) → P (x >>= f)
  stopNowhere : ∀ {α : Type} {stop : Stop}, stop.isStructural = false → stop ≠ .badBounds →
    (∀ cause pos, stop ≠ .fault cause (some pos)) → P (throw stop : Run α)
  observe : ∀ {α : Type} {f : Machine → Run α}, Machine.ScopeFree f →
    (∀ m : Machine, StopsUnless @P m.structs.Fits → P (f m)) → P (get >>= f)
  alloc : ∀ values, P (modifyGet fun m => m.alloc values)
  put : ∀ p v, P (modify fun m => { m with arena := m.arena.put p v })
  beside : ∀ {α : Type} (f : Machine → α × Machine), (∀ m : Machine, m.Beside (f m).2) →
    Machine.ScopeFree (fun m => ((f m).1, (f m).2.records, (f m).2.output)) → P (modifyGet f)

/-- Such a property that holds of the stops at any place. -/
structure Closed (P : ∀ {α : Type}, Run α → Prop) : Prop extends Placeless @P where
  stop : ∀ {α : Type} {stop : Stop}, stop.isStructural = false → stop ≠ .badBounds →
    P (throw stop : Run α)
  stopNowhere h hbounds _ := stop h hbounds

namespace Placeless

variable {P : ∀ {α : Type}, Run α → Prop} {α β : Type} (hP : Placeless @P)

include hP

/-! ### Ways to put runs together -/

theorem failNowhere {cause : Fault} (h : cause.isStructural = false) :
    P (Run.fail cause none : Run α) :=
  hP.stopNowhere h nofun nofun

theorem lift {x : Except Fault α} (h : LinkageFree x) : P (Run.lift x) := by
  cases x with
  | ok a => exact hP.pure a
  | error cause => exact hP.failNowhere (h cause rfl)

theorem mapList {f : α → Run β} {l : List α} (h : ∀ a ∈ l, P (f a)) : P (l.mapM f) := by
  induction l with
  | nil =>
    rw [List.mapM_nil]
    exact hP.pure []
  | cons a l ih =>
    rw [List.mapM_cons]
    refine hP.bind (h a List.mem_cons_self) fun b => ?_
    refine hP.bind (ih fun c hc => h c (List.mem_cons_of_mem a hc)) fun bs => ?_
    exact hP.pure (b :: bs)

theorem forM {f : α → Run PUnit} {l : List α} (h : ∀ a ∈ l, P (f a)) : P (l.forM f) := by
  induction l with
  | nil => exact hP.pure _
  | cons a l ih =>
    exact hP.bind (h a List.mem_cons_self) fun _ => ih fun b hb => h b (List.mem_cons_of_mem a hb)

theorem mapArray {f : α → Run β} {l : Array α} (h : ∀ a ∈ l, P (f a)) : P (l.mapM f) := by
  rw [Array.mapM_eq_mapM_toList, ← bind_pure_comp]
  refine hP.bind (hP.mapList fun a ha => h a (Array.mem_toList_iff.mp ha)) fun bs => ?_
  exact hP.pure bs.toArray

/-! ### Slots, buffers and struct values -/

theorem change {f : Machine → Machine} (hf : ∀ m : Machine, m.Beside (f m))
    (hfree : Machine.ScopeFree fun m => ((f m).records, (f m).output)) :
    P (modify f : Run PUnit) :=
  hP.beside (fun m => (PUnit.unit, f m)) hf fun m frames current events =>
    congrArg (Prod.mk PUnit.unit) (hfree m frames current events)

theorem load (p : Pointer) : P (Run.load p) :=
  hP.observe (fun _ _ _ _ => rfl) fun m _ => hP.lift (m.arena.linkageFree_load p)

theorem store (p : Pointer) (v : Value) : P (Run.store p v) := by
  refine hP.observe (fun _ _ _ _ => rfl) fun m _ => ?_
  exact hP.bind (hP.lift (m.arena.linkageFree_locate p)) fun _ => hP.put p v

theorem newRecord (record : Record) : P (Run.newRecord record) := by
  refine hP.bind (hP.beside _ (fun m => ⟨_, _, _, ?_, rfl⟩) fun _ _ _ _ => rfl) fun id => hP.pure _
  exact Nat.le_of_lt (Nat.lt_of_lt_of_eq (Nat.lt_succ_self _) (Array.size_push ..).symm)

theorem newBuffer_unowned (values : Array Value) : P (newBuffer false values) :=
  hP.alloc values

/-! ### New values -/

theorem makeValues {make : Run Value} (hmake : P make) (n : Nat) (made : Array Value) :
    P (Run.makeValues make n made) := by
  induction n generalizing made with
  | zero => exact hP.pure made
  | succ n ih => exact hP.bind hmake fun v => ih (made.push v)

theorem newArrayOf {owned : Bool} {make : Run Value} (hbuf : ∀ values, P (newBuffer owned values))
    (hmake : P make) (elem : CType) (sizes : List Nat) :
    P (Run.newArrayOf owned elem make sizes) := by
  induction sizes with
  | nil => exact hP.bind (hbuf _) fun _ => hP.pure _
  | cons n sizes ih =>
    cases sizes with
    | nil =>
      refine hP.bind (hP.makeValues hmake n #[]) fun values => ?_
      exact hP.bind (hbuf values) fun _ => hP.pure _
    | cons size sizes =>
      rw [Run.newArrayOf]
      refine hP.bind (hP.makeValues ?_ n #[]) fun rows => ?_
      · exact hP.bind ih fun row => hP.pure _
      · exact hP.bind (hbuf rows) fun _ => hP.pure _

theorem elementType {f : Field} (hf : StopsUnless @P f.Fits) {bounds : List Nat}
    (hbounds : f.bounds = some bounds) : P (Run.elementType f.type bounds) := by
  unfold Run.elementType
  split
  next hnone =>
    refine hf fun hfits => ?_
    have hsome := hfits bounds hbounds
    rw [hnone] at hsome
    cases hsome
  · exact hP.pure _

theorem zeroWithin (depth : Nat) (t : CType) : P (Run.zeroWithin depth t) := by
  induction depth generalizing t with
  | zero =>
    rw [Run.zeroWithin]
    split
    · exact hP.stopNowhere rfl nofun nofun
    · exact hP.lift (Value.linkageFree_zeroScalar t)
  | succ depth ih =>
    rw [Run.zeroWithin]
    split
    · refine hP.observe (fun _ _ _ _ => rfl) fun m hstop => ?_
      refine hP.bind (hP.mapList fun field hfield => ?_) fun fields => hP.newRecord _
      cases hbounds : field.bounds with
      | none => exact hP.bind (ih field.type) fun v => hP.pure _
      | some dims =>
        have hfits := hstop.imp fun h => h.of_currentFields hfield
        refine hP.bind (hP.elementType hfits hbounds) fun elem => ?_
        refine hP.bind (hP.newArrayOf hP.newBuffer_unowned (ih elem) elem dims) fun array => ?_
        exact hP.pure _
    · exact hP.lift (Value.linkageFree_zeroScalar t)

theorem zeroValue (t : CType) : P (Run.zeroValue t) :=
  hP.observe (fun _ _ _ _ => rfl) fun m _ => hP.zeroWithin m.structs.decls.size t

/-! ### Copies -/

theorem copyWithin (depth rank : Nat) (v : Value) : P (Run.copyWithin depth rank v) := by
  induction depth generalizing rank v with
  | zero =>
    cases v with
    | record id => exact hP.stopNowhere rfl nofun nofun
    | pointer p =>
      cases rank with
      | zero => exact hP.pure _
      | succ rank => exact hP.stopNowhere rfl nofun nofun
    | _ => exact hP.pure _
  | succ depth ih =>
    cases v with
    | record id =>
      refine hP.observe (fun _ _ _ _ => rfl) fun m _ => ?_
      refine hP.bind (hP.mapList fun field _ => ?_) fun fields => hP.newRecord _
      exact hP.bind (ih _ field.2) fun v => hP.pure _
    | pointer p =>
      cases rank with
      | zero => exact hP.pure _
      | succ rank =>
        refine hP.observe (fun _ _ _ _ => rfl) fun m _ => ?_
        refine hP.bind (hP.lift (m.arena.linkageFree_contents _)) fun values => ?_
        refine hP.bind (hP.mapArray fun v _ => ih rank v) fun copies => ?_
        exact hP.bind (hP.newBuffer_unowned copies) fun _ => hP.pure _
    | _ => exact hP.pure _

theorem copy (v : Value) : P (Run.copy v) :=
  hP.observe (fun _ _ _ _ => rfl) fun _ _ => hP.copyWithin _ 0 v

/-! ### Places and rows -/

theorem read (place : Place) : P place.read := by
  cases place with
  | slot p => exact hP.load p
  | field record name type =>
    refine hP.observe (fun _ _ _ _ => rfl) fun m _ => ?_
    cases m.records.field? record name with
    | none => exact hP.failNowhere rfl
    | some v => exact hP.pure v

theorem write (v : Value) (place : Place) : P (place.write v) := by
  cases place with
  | slot p => exact hP.store p v
  | field record name type =>
    refine hP.change (fun m => ⟨_, _, _, ?_, rfl⟩) fun _ _ _ _ => rfl
    exact Nat.le_of_eq Array.size_modify.symm

theorem address (place : Place) : P place.address := by
  cases place with
  | slot p => exact hP.pure _
  | field record name type => exact hP.failNowhere rfl

theorem storeAll (p : Pointer) (values : List Value) : P (Run.storeAll p values) := by
  induction values generalizing p with
  | nil => exact hP.pure ()
  | cons v values ih => exact hP.bind (hP.store p v) fun _ => ih (p.moved 1)

theorem rowAt (slot : Pointer) : P (Run.rowAt slot) := by
  refine hP.bind (hP.load slot) fun v => ?_
  cases v with
  | pointer row => exact hP.pure row
  | _ => exact hP.failNowhere rfl

/-! ### Operators -/

theorem truth (v : Value) : P (Run.truth v) :=
  hP.lift v.linkageFree_truth

theorem print (v : Value) : P (Run.print v) := by
  have hwrite : ∀ text : String, P (do
      modify fun m : Machine => { m with output := m.output ++ text ++ "\n" }
      return .int (.plain (Int.ofNat text.length + 1)) : Run Value) := by
    intro text
    refine hP.bind (hP.change (fun m => ?_) fun _ _ _ _ => rfl) fun _ => hP.pure _
    exact ⟨_, _, _, Nat.le_refl _, rfl⟩
  cases v with
  | pointer p =>
    refine hP.observe (fun _ _ _ _ => rfl) fun m _ => ?_
    exact hP.bind (hP.lift (m.arena.linkageFree_readString p)) fun codes => hwrite _
  | _ => exact hP.observe (fun _ _ _ _ => rfl) fun m _ => hwrite _

end Placeless

namespace Closed

variable {P : ∀ {α : Type}, Run α → Prop} {α : Type}

section

variable (hP : Closed @P)

include hP

theorem fail {cause : Fault} (pos : Option Position) (h : cause.isStructural = false) :
    P (Run.fail cause pos : Run α) :=
  hP.stop h nofun

theorem failAt {cause : Fault} (pos : Position) (h : cause.isStructural = false) :
    P (Run.failAt cause pos : Run α) :=
  hP.stop h nofun

theorem liftAt (pos : Option Position) {x : Except Fault α} (h : LinkageFree x) :
    P (Run.liftAt pos x) := by
  cases x with
  | ok a => exact hP.pure a
  | error cause => exact hP.fail pos (h cause rfl)

/-! ### Types of values -/

theorem typeOfValue (pos : Option Position) (v : Value) : P (Run.typeOfValue pos v) := by
  cases v with
  | int | float | double => exact hP.pure _
  | pointer p =>
    rw [Run.typeOfValue]
    split
    · exact hP.fail pos rfl
    · exact hP.pure _
  | record id =>
    refine hP.observe (fun _ _ _ _ => rfl) fun m _ => hP.lift ?_
    cases m.structs.typeOf ["struct", (m.records.get id).tag] with
    | error e => exact .error rfl
    | ok t => exact .ok t
  | function name => exact hP.fail pos rfl

theorem convert (t : CType) (v : Value) (pos : Option Position) : P (Run.convert t v pos) := by
  unfold Run.convert
  split
  · cases v with
    | record id =>
      refine hP.observe (fun _ _ _ _ => rfl) fun m _ => ?_
      split
      · exact hP.copy _
      · exact hP.fail pos rfl
    | _ => exact hP.fail pos rfl
  · split
    · exact hP.stopNowhere rfl nofun nofun
    · exact hP.liftAt pos (v.linkageFree_convertScalar t)

/-! ### Places -/

theorem fit (place : Place) (v : Value) (pos : Option Position) : P (place.fit v pos) := by
  unfold Place.fit
  cases place.type? with
  | none => exact hP.copy v
  | some t => exact hP.convert t v pos

theorem assign (place : Place) (v : Value) (pos : Option Position) :
    P (place.assign v pos) := by
  refine hP.bind (hP.fit place v pos) fun fitted => ?_
  exact hP.bind (hP.write fitted place) fun _ => hP.read place

theorem target (pos : Position) (v : Value) : P (Run.target pos v) := by
  cases v with
  | pointer p => exact hP.pure _
  | _ => exact hP.failAt pos rfl

theorem element (pos : Position) (v i : Value) : P (Run.element pos v i) := by
  cases v with
  | pointer p =>
    cases i with
    | int n => exact hP.pure _
    | _ => exact hP.failAt pos rfl
  | _ => exact hP.failAt pos rfl

theorem member (pos : Position) (field : Token) (v : Value) : P (Run.member pos field v) := by
  cases v with
  | record id =>
    refine hP.observe (fun _ _ _ _ => rfl) fun m _ => ?_
    dsimp only
    split
    · exact hP.failAt _ rfl
    · exact hP.pure _
  | _ => exact hP.failAt pos rfl

theorem arrow (pos : Position) (field : Token) (v : Value) : P (Run.arrow pos field v) := by
  cases v with
  | pointer p => exact hP.bind (hP.load p) fun v => hP.member pos field v
  | _ => exact hP.failAt pos rfl

/-! ### Types and operators -/

theorem typeNamed (name : TypeName) : P (Run.typeNamed name) := by
  refine hP.observe (fun _ _ _ _ => rfl) fun m _ => ?_
  cases m.structs.typeOf name.words with
  | error e => exact hP.failAt _ rfl
  | ok t => exact hP.pure t

theorem resolve (known : Nat → Option CType) (name : TypeName) : P (Run.resolve known name) := by
  unfold Run.resolve
  split
  · exact hP.typeNamed name
  · split
    · exact hP.pure _
    · exact hP.typeNamed name

theorem sizeNamed (known : Nat → Option CType) (name : TypeName) :
    P (Run.sizeNamed known name) := by
  refine hP.observe (fun _ _ _ _ => rfl) fun m hstop => ?_
  refine hP.bind (hP.resolve known name) fun t => ?_
  cases hsize : m.structs.sizeOf t with
  | ok n => exact hP.pure _
  | error e =>
    cases e with
    | endless => exact hP.stopNowhere rfl nofun nofun
    | badBounds => exact hstop fun h => h.sizeWithin_ne _ t hsize

theorem arith (op : ArithOp) (left right : Value) (pos : Position) :
    P (Run.arith op left right pos) := by
  refine hP.bind (hP.liftAt _ (Operands.linkageFree_select op left right)) fun operands => ?_
  split
  · exact hP.stopNowhere rfl nofun nofun
  · exact hP.lift (operands.linkageFree_eval op)

/-- The one operator that is left out is not one on values. -/
theorem unary {op : UnaryOp} (hop : op ≠ .address) (v : Value) (pos : Position) :
    P (Run.unary op v pos) := by
  cases op with
  | negate | plus =>
    refine hP.bind (hP.liftAt _ v.linkageFree_zeroLike) fun zero => ?_
    exact hP.arith _ zero v pos
  | not => exact hP.bind (hP.truth v) fun b => hP.pure _
  | complement =>
    cases v with
    | int n => exact hP.pure _
    | _ => exact hP.failAt pos rfl
  | deref => exact hP.bind (hP.target pos v) fun place => hP.read place
  | address => exact absurd rfl hop

theorem step (op : StepOp) (place : Place) (pos : Position) : P (Run.step op place pos) := by
  refine hP.bind (hP.read place) fun old => hP.bind (hP.arith _ old _ pos) fun sum => ?_
  refine hP.bind (hP.fit place sum _) fun new => hP.bind (hP.write new place) fun _ => ?_
  cases op.fixity <;> exact hP.pure _

theorem update (op : ArithOp) (place : Place) (v : Value) (pos : Position) :
    P (Run.update op place v pos) := by
  refine hP.bind (hP.read place) fun old => hP.bind (hP.arith op old v pos) fun new => ?_
  exact hP.assign place new _

/-! ### Initializers -/

theorem fillString (array : Pointer) (size : Nat) (token : Token) :
    P (Run.fillString array size token) := by
  unfold Run.fillString
  split
  · exact hP.failAt _ rfl
  · exact hP.storeAll array _

end

/-! ### Filling arrays and structs -/

/-- Expressions `Q` whose evaluation has a property, among them the items of every list. -/
structure Items (P : ∀ {α : Type}, Run α → Prop) (Q : Expr → Prop) (eval : Expr → Run Value) :
    Prop where
  eval : ∀ {e}, Q e → P (eval e)
  list : ∀ {head tail}, Q (.list head tail) → ∀ e ∈ head :: tail, Q e

section

variable {Q : Expr → Prop} {eval : Expr → Run Value} (hP : Closed @P) (hQ : Items @P Q eval)

include hP hQ

theorem sizesOf (needed : Nat) {dims : List Dim}
    (hdims : ∀ size, .sized size ∈ dims → Q size) : P (Run.sizesOf eval needed dims) := by
  induction dims generalizing needed with
  | nil => exact hP.pure []
  | cons dim dims ih =>
    have hrest : P (Run.sizesOf eval 0 dims) :=
      ih 0 fun size hsize => hdims size (List.mem_cons_of_mem dim hsize)
    cases dim with
    | unsized => exact hP.bind hrest fun sizes => hP.pure _
    | sized size =>
      refine hP.bind (hQ.eval (hdims size List.mem_cons_self)) fun v => ?_
      cases v with
      | int n =>
        dsimp only
        split
        · exact hP.failAt _ rfl
        · exact hP.bind hrest fun sizes => hP.pure _
      | _ => exact hP.failAt _ rfl

theorem arraySizes {d : Declarator}
    (hdims : ∀ size, .sized size ∈ d.dims → Q size) (init : Option Expr) :
    P (Run.arraySizes eval d init) := by
  unfold Run.arraySizes
  split
  · exact hP.failAt _ rfl
  · exact hP.sizesOf hQ _ hdims

theorem itemValue (t : CType) {item : Expr}
    (hitem : Q item) : P (Run.itemValue eval t item) :=
  hP.bind (hQ.eval hitem) fun v => hP.convert t v _

theorem fillFlat (array : Pointer) (elem : CType)
    (length i : Nat) {items : List Expr} (hitems : ∀ e ∈ items, Q e) :
    P (Run.fillFlat eval array elem length i items) := by
  induction items generalizing i with
  | nil => exact hP.pure ()
  | cons item items ih =>
    refine hP.bind (hP.rowAt _) fun row => ?_
    refine hP.bind (hP.itemValue hQ elem (hitems item List.mem_cons_self)) fun v => ?_
    refine hP.bind (hP.store _ v) fun _ => ?_
    exact ih (i + 1) fun e he => hitems e (List.mem_cons_of_mem item he)

theorem fillSlot (slot : Pointer) (elem : CType)
    (isRow : Bool) {item : Expr} (hitem : Q item) {fillRow : Pointer → Run Unit}
    {fillRecord : Nat → Run Unit} (hrow : ∀ row, P (fillRow row))
    (hrecord : ∀ id, P (fillRecord id)) :
    P (Run.fillSlot eval slot elem isRow item fillRow fillRecord) := by
  unfold Run.fillSlot
  split
  · exact hP.bind (hP.rowAt slot) hrow
  · split
    · refine hP.bind (hP.zeroValue elem) fun v => ?_
      cases v with
      | record id => exact hP.bind (hrecord id) fun _ => hP.store slot _
      | _ => exact hP.store slot _
    · exact hP.bind (hP.itemValue hQ elem hitem) fun v => hP.store slot v

theorem fillField (id : Nat) {field : Field} (hfield : StopsUnless @P field.Fits)
    {item : Expr} (hitem : Q item) {fillArray : Pointer → CType → List Nat → Run Unit}
    (harray : ∀ array elem sizes, P (fillArray array elem sizes)) :
    P (Run.fillField eval id field item fillArray) := by
  unfold Run.fillField
  cases hbounds : field.bounds with
  | none => exact hP.bind (hP.itemValue hQ _ hitem) fun v => hP.write v _
  | some dims =>
    refine hP.bind (hP.read _) fun v => ?_
    cases v with
    | pointer array =>
      exact hP.bind (hP.elementType hfield hbounds) fun elem => harray array elem dims
    | _ => exact hP.fail none rfl

mutual

theorem fillArray (array : Pointer) (elem : CType) (sizes : List Nat) (init : Expr)
    (hinit : Q init) : P (Run.fillArray eval array elem sizes init) := by
  cases init with
  | list head tail =>
    have hitems := hQ.list hinit
    have hhead : Q head := hitems head List.mem_cons_self
    rw [Run.fillArray]
    split
    · split
      · exact hP.failAt _ rfl
      · exact hP.fillFlat hQ array elem _ 0 hitems
    · split
      · exact hP.failAt _ rfl
      · refine hP.bind (hP.fillSlot hQ array elem _ hhead ?_ ?_) fun _ => ?_
        · exact fun row => fillArray row elem sizes.tail head hhead
        · exact fun id => fillRecord id elem head hhead
        · exact fillSlots (array.moved 1) elem sizes tail
            fun e he => hitems e (List.mem_cons_of_mem head he)
  | _ =>
    unfold Run.fillArray
    split
    · exact hP.fillString array _ _
    · exact hP.failAt _ rfl

theorem fillSlots (slot : Pointer) (elem : CType) (sizes : List Nat) (items : List Expr)
    (hitems : ∀ e ∈ items, Q e) : P (Run.fillSlots eval slot elem sizes items) := by
  cases items with
  | nil => exact hP.pure ()
  | cons item rest =>
    have hitem : Q item := hitems item List.mem_cons_self
    rw [Run.fillSlots]
    refine hP.bind (hP.fillSlot hQ slot elem _ hitem ?_ ?_) fun _ => ?_
    · exact fun row => fillArray row elem sizes.tail item hitem
    · exact fun id => fillRecord id elem item hitem
    · exact fillSlots (slot.moved 1) elem sizes rest
        fun e he => hitems e (List.mem_cons_of_mem item he)

theorem fillRecord (id : Nat) (t : CType) (init : Expr) (hinit : Q init) :
    P (Run.fillRecord eval id t init) := by
  cases init with
  | list head tail =>
    have hitems := hQ.list hinit
    have hhead : Q head := hitems head List.mem_cons_self
    rw [Run.fillRecord]
    refine hP.observe (fun _ _ _ _ => rfl) fun m hstop => ?_
    have hfits : ∀ field ∈ m.structs.currentFields t, StopsUnless @P field.Fits :=
      fun field hfield => hstop.imp fun h => h.of_currentFields hfield
    have hfill : P (match m.structs.currentFields t with
        | [] => Pure.pure ()
        | field :: fields => do
          Run.fillField eval id field head
            (fun array elem sizes => Run.fillArray eval array elem sizes head)
          Run.fillFields eval id fields tail : Run Unit) := by
      cases hfields : m.structs.currentFields t with
      | nil => exact hP.pure ()
      | cons field fields =>
        rw [hfields, List.forall_mem_cons] at hfits
        refine hP.bind (hP.fillField hQ id hfits.1 hhead ?_) fun _ => ?_
        · exact fun array elem sizes => fillArray array elem sizes head hhead
        · exact fillFields id fields tail hfits.2
            fun e he => hitems e (List.mem_cons_of_mem head he)
    dsimp only
    split
    · exact hP.bind (hP.failAt _ rfl) fun _ => hfill
    · exact hfill
  | _ => exact hP.pure ()

theorem fillFields (id : Nat) (fields : List Field) (items : List Expr)
    (hfits : ∀ field ∈ fields, StopsUnless @P field.Fits) (hitems : ∀ e ∈ items, Q e) :
    P (Run.fillFields eval id fields items) := by
  cases items with
  | nil => cases fields <;> exact hP.pure ()
  | cons item rest =>
    cases fields with
    | nil => exact hP.pure ()
    | cons field fields =>
      have hitem : Q item := hitems item List.mem_cons_self
      rw [List.forall_mem_cons] at hfits
      rw [Run.fillFields]
      refine hP.bind (hP.fillField hQ id hfits.1 hitem ?_) fun _ => ?_
      · exact fun array elem sizes => fillArray array elem sizes item hitem
      · exact fillFields id fields rest hfits.2
          fun e he => hitems e (List.mem_cons_of_mem item he)

end

end

end Closed

/-! ## Initializers that are no lists -/

theorem string?_eq_some {e : Expr} {token : Token} (h : e.string? = some token) :
    ∃ leaf, e = .literal leaf .string ∧ token = leaf.token := by
  cases e with
  | literal leaf kind =>
    cases kind with
    | string =>
      cases h
      exact ⟨leaf, rfl, rfl⟩
    | _ => cases h
  | _ => cases h

/-- An initializer that is no list fills an array as a string does, or not at all. -/
theorem fillArray_of_not_list (eval : Expr → Run Value) (array : Pointer) (elem : CType)
    (sizes : List Nat) {init : Expr} (hinit : init.items? = none) :
    fillArray eval array elem sizes init =
      match init.string?, sizes with
      | some token, [size] => fillString array size token
      | _, _ => failAt .listNeeded init.pos := by
  cases init with
  | list head tail => cases hinit
  | _ => rfl

end Run

end MiniC
