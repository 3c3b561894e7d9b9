import MiniC.Proofs.Linkage
import MiniC.Proofs.Rows.Hidden

set_option autoImplicit false

/-! # Filling an array of arrays

An array of arrays is filled from a flat list row after row, and from a list of lists in the same
order. Both evaluate the items one after another and store each value in the same slot; they differ
in that the flat list looks up the row of each item, and the list of lists each row only once. That
makes no difference, since no item can reach the array that it is for. -/

namespace MiniC

namespace Arena

/-- The value of a slot of a live buffer. -/
theorem load_of_buffer {a : Arena} {p : Pointer} {values : Array Value} {k : Nat} {v : Value}
    (hbuffer : a.buffer? p.buffer = some values) (hindex : p.index = Int.ofNat k)
    (hslot : values[k]? = some v) : a.load p = .ok v := by
  have hlive : a.Live p.buffer := by
    rw [Live, hbuffer]
    rfl
  have hnull : p.isNull = false := decide_eq_false (Nat.ne_of_gt hlive.bounds.1)
  have hlow : 0 ≤ p.index := hindex ▸ Int.natCast_nonneg k
  have hhigh : p.index < Int.ofNat values.size :=
    hindex ▸ Int.ofNat_lt.mpr (Array.getElem?_eq_some_iff.mp hslot).1
  have hplace : a.locate p = .ok (values, k) :=
    locate_eq_ok_iff.mpr ⟨hnull, hbuffer, hlow, hhigh, congrArg Int.toNat hindex⟩
  rw [load, hplace]
  simp only [bind, Except.bind, hslot]
  rfl

end Arena

namespace Run

/-! ## Lists of rows -/

/-- Items in lists of `c` items each; the last list may be shorter. -/
def rowLists (c : Nat) : List Expr → List Expr
  | [] => []
  | head :: tail => .list head (tail.take (c - 1)) :: rowLists c (tail.drop (c - 1))
termination_by items => items.length
decreasing_by
  rw [List.length_drop, List.length_cons]
  omega

/-- A list of lists with the items of a flat one, `c` of them in each. -/
def inRows (c : Nat) (head : Expr) (tail : List Expr) : Expr :=
  .list (.list head (tail.take (c - 1))) (rowLists c (tail.drop (c - 1)))

/-- There are no more lists than rows that the items fill. -/
theorem length_rowLists_le {c r : Nat} {items : List Expr} (hfit : items.length ≤ r * c) :
    (rowLists c items).length ≤ r := by
  induction items using rowLists.induct c generalizing r with
  | case1 =>
    rw [rowLists]
    exact Nat.zero_le r
  | case2 head tail ih =>
    rw [rowLists, List.length_cons]
    cases r with
    | zero => simp at hfit
    | succ r =>
      refine Nat.succ_le_succ (ih ?_)
      rw [List.length_cons, Nat.succ_mul] at hfit
      rw [List.length_drop]
      omega

/-! ## What an array of arrays has while it is filled -/

/-- The slot of the element with the number `i`, where rows have `c` elements. -/
def elementSlot (elem : CType) (handles : List Nat) (c i : Nat) : Pointer :=
  (rowPointer elem (handles.getD (i / c) 0)).moved (Int.ofNat (i % c))

theorem elementSlot_row {elem : CType} {handles : List Nat} {c k j handle : Nat}
    (hk : handles[k]? = some handle) (hj : j < c) :
    elementSlot elem handles c (k * c + j) = (rowPointer elem handle).moved (Int.ofNat j) := by
  have hdiv : (k * c + j) / c = k := Nat.div_eq_of_lt_le (Nat.le_add_right _ _) (by
    rw [Nat.succ_mul]
    exact Nat.add_lt_add_left hj _)
  have hmod : (k * c + j) % c = j := (Nat.mul_add_mod' k c j).trans (Nat.mod_eq_of_lt hj)
  rw [elementSlot, hdiv, hmod, List.getD, hk, Option.getD_some]

/-- Fills rows with items, from the element with the number `i` on. -/
def fillRows (eval : Expr → Run Value) (elem : CType) (handles : List Nat) (c : Nat) :
    Nat → List Expr → Run Unit
  | _, [] => pure ()
  | i, item :: rest => do
    let v ← itemValue eval elem item
    store (elementSlot elem handles c i) v
    fillRows eval elem handles c (i + 1) rest

theorem fillRows_append (eval : Expr → Run Value) (elem : CType) (handles : List Nat) (c n : Nat)
    (items rest : List Expr) :
    fillRows eval elem handles c n (items ++ rest) = (do
      fillRows eval elem handles c n items
      fillRows eval elem handles c (n + items.length) rest) := by
  induction items generalizing n with
  | nil =>
    rw [fillRows, pure_bind]
    rfl
  | cons item items ih =>
    rw [List.cons_append, fillRows, fillRows, ih, List.length_cons, Nat.add_comm items.length,
      ← Nat.add_assoc]
    simp only [bind_assoc]

/-- A list fills the slots of an array in order, unless it is a flat list for an array of arrays. -/
theorem fillArray_list {eval : Expr → Run Value} {array : Pointer} {elem : CType}
    {sizes : List Nat} {head : Expr} {tail : List Expr}
    (hflat : isFlat sizes (head :: tail) = false)
    (hfit : tail.length + 1 ≤ sizes.headD 0) :
    fillArray eval array elem sizes (.list head tail) =
      fillSlots eval array elem sizes (head :: tail) := by
  rw [fillArray, hflat, if_neg Bool.false_ne_true, if_neg (Nat.not_lt_of_le hfit), fillSlots]

/-- What is true of a state in which an array that was made between two states has got its first `n`
elements: all that was made with it is as it was, apart from the elements in front of that one. -/
structure Filling (m m₁ : Machine) (handles : List Nat) (c n : Nat) (t : Machine) : Prop where
  good : (Domain.outside m m₁).Good t
  others : ∀ l : Location, l.MadeBetween m m₁ → (∀ handle ∈ handles, l ≠ .buffer handle) →
    l.Same m₁ t
  rows : ∀ (k handle : Nat), handles[k]? = some handle → ∃ values values',
    m₁.arena.buffer? handle = some values ∧ t.arena.buffer? handle = some values' ∧
      values.size = c ∧ values'.size = c ∧
      ∀ j < c, n ≤ k * c + j → values'[j]? = values[j]?

/-- Whether a value was made as the zero value of a type, and all that was made with it is in a
state as it was made. -/
def IsZero (elem : CType) (t : Machine) (v : Value) : Prop :=
  ∃ u u', (zeroValue elem).exec u = .ok v u' ∧ ∀ l : Location, l.MadeBetween u u' → l.Same u' t

section

variable {m m₁ t t' : Machine} {array : Pointer} {elem : CType} {c n : Nat} {handles : List Nat}
  (harray : HasArray m m₁ array elem c handles)

include harray

/-- The rows of an array were made with it. -/
theorem HasArray.madeBetween {handle : Nat} (hmem : handle ∈ handles) :
    (Location.buffer handle).MadeBetween m m₁ :=
  ⟨harray.lt_next hmem, Nat.not_lt_of_le (harray.new handle hmem)⟩

theorem filling_start (hgood : (Domain.outside m m₁).Good m₁) : Filling m m₁ handles c 0 m₁ where
  good := hgood
  others l _ _ := .refl m₁ l
  rows k handle hk := by
    obtain ⟨values, hbuffer, hsize, -⟩ := harray.rows handle (List.mem_of_getElem? hk)
    exact ⟨values, values, hbuffer, hbuffer, hsize, hsize, fun _ _ _ => rfl⟩

/-- The rows stay where they are. -/
theorem Filling.exec_rowAt (h : Filling m m₁ handles c n t) {k handle : Nat}
    (hk : handles[k]? = some handle) :
    (rowAt (array.moved (Int.ofNat k))).exec t = .ok (rowPointer elem handle) t := by
  have hlive : m₁.arena.Live array.buffer := by
    rw [Arena.Live, harray.outer]
    rfl
  have hmade : (Location.buffer array.buffer).MadeBetween m m₁ :=
    ⟨hlive.bounds.2, Nat.not_lt_of_le harray.made⟩
  have hsame : t.arena.buffer? array.buffer = m₁.arena.buffer? array.buffer :=
    h.others _ hmade fun handle hmem heq => harray.apart (Location.buffer.inj heq ▸ hmem)
  have hindex : (array.moved (Int.ofNat k)).index = Int.ofNat k := by
    rw [Pointer.moved, harray.index]
    exact Int.zero_add _
  have hload : t.arena.load (array.moved (Int.ofNat k)) =
      .ok (.pointer (rowPointer elem handle)) := by
    refine Arena.load_of_buffer (hsame.trans harray.outer) hindex ?_
    rw [List.getElem?_toArray, List.getElem?_map, hk, Option.map_some]
  have hvalue : (load (array.moved (Int.ofNat k))).exec t =
      .ok (.pointer (rowPointer elem handle)) t := by
    rw [load, Traced.exec_bind_of_ok _ (Traced.exec_get t), hload]
    rfl
  rw [rowAt, Traced.exec_bind_of_ok _ hvalue]
  rfl

/-- No item reaches the array that it is for. -/
theorem Filling.itemValue {known : Nat → Option CType} {fuel : Nat} {item : Expr} {v : Value}
    (h : Filling m m₁ handles c n t)
    (hitem : (itemValue (eval ⟨known, call known fuel⟩) elem item).exec t = .ok v t') :
    Filling m m₁ handles c n t' := by
  obtain ⟨hgood, hsame⟩ := Domain.outside_itemValue known fuel h.good elem item
  rw [Traced.after_of_ok hitem] at hgood hsame
  refine ⟨hgood, fun l hl hrow => (h.others l hl hrow).trans (hsame l hl), fun k handle hk => ?_⟩
  obtain ⟨values, values', hbuffer, hbuffer', hrest⟩ := h.rows k handle hk
  have hmade := harray.madeBetween (List.mem_of_getElem? hk)
  exact ⟨values, values', hbuffer, Eq.trans (hsame _ hmade) hbuffer', hrest⟩

/-- The value of an item gets into the slot that comes next. -/
theorem Filling.store {v : Value} (h : Filling m m₁ handles c n t) (hn : n < handles.length * c)
    (hstore : (store (elementSlot elem handles c n) v).exec t = .ok () t') :
    Filling m m₁ handles c (n + 1) t' := by
  have hc : 0 < c := Nat.pos_of_mul_pos_left (Nat.zero_lt_of_lt hn)
  -- The slot that comes next is the one at place `j` of row `k`.
  obtain ⟨k, j, hj, rfl⟩ : ∃ k j, j < c ∧ n = k * c + j :=
    ⟨n / c, n % c, Nat.mod_lt n hc, (Nat.div_add_mod' n c).symm⟩
  have hk : k < handles.length :=
    Nat.lt_of_mul_lt_mul_right (Nat.lt_of_le_of_lt (Nat.le_add_right _ j) hn)
  have hat : handles[k]? = some handles[k] := List.getElem?_eq_getElem hk
  have hmade := harray.madeBetween (List.getElem_mem hk)
  rw [elementSlot_row hat hj] at hstore
  have hwrite : ((Place.slot ((rowPointer elem handles[k]).moved (Int.ofNat j))).write v).exec t =
      .ok () t' := hstore
  have hsame := (same_of_write hwrite).2
  obtain ⟨-, rfl⟩ := exec_store hstore
  refine ⟨Domain.outside_put h.good hmade v, fun l hl hrow => ?_, fun k' handle hk' => ?_⟩
  · exact (h.others l hl hrow).trans (hsame l (hrow _ (List.getElem_mem hk)))
  · obtain ⟨values, values', hbuffer, hbuffer', hsize, hsize', hrest⟩ := h.rows k' handle hk'
    by_cases hkk : k' = k
    · subst hkk
      cases hat.symm.trans hk'
      refine ⟨values, _, hbuffer, Arena.buffer?_put_self hbuffer' v, hsize,
        Array.size_setIfInBounds.trans hsize', fun j' hj' hle => ?_⟩
      rw [← hrest j' hj' (by omega), Array.getElem?_setIfInBounds_ne]
      change (0 + (j : Int)).toNat ≠ j'
      omega
    · have hne : handle ≠ handles[k] := by
        obtain ⟨_, rfl⟩ := List.getElem?_eq_some_iff.mp hk'
        exact fun heq => hkk (harray.nodup.getElem_inj_iff.mp heq)
      refine ⟨values, values', hbuffer, ?_, hsize, hsize',
        fun j' hj' hle => hrest j' hj' (by omega)⟩
      exact Eq.trans (hsame (.buffer handle) fun heq => hne (Location.buffer.inj heq)) hbuffer'

variable {known : Nat → Option CType} {fuel : Nat} {items : List Expr}

/-- Filling rows with items leaves the elements behind them as they are. -/
theorem Filling.fillRows (h : Filling m m₁ handles c n t)
    (hfit : n + items.length ≤ handles.length * c)
    (hrun : (fillRows (eval ⟨known, call known fuel⟩) elem handles c n items).exec t = .ok () t') :
    Filling m m₁ handles c (n + items.length) t' := by
  induction items generalizing n t with
  | nil =>
    cases hrun
    exact h
  | cons item rest ih =>
    obtain ⟨v, u, hitem, hrun, -⟩ := Traced.exec_bind_eq_ok hrun
    obtain ⟨_, u', hstore, hrun, -⟩ := Traced.exec_bind_eq_ok hrun
    rw [List.length_cons] at hfit ⊢
    have hnext := (h.itemValue harray hitem).store harray (by omega) hstore
    rw [Nat.add_comm rest.length, ← Nat.add_assoc] at hfit ⊢
    exact ih hnext hfit hrun

/-- A flat list fills the rows, whichever of them each item looks up. -/
theorem exec_fillFlat (h : Filling m m₁ handles c n t)
    (hfit : n + items.length ≤ handles.length * c) :
    (fillFlat (eval ⟨known, call known fuel⟩) array elem c n items).exec t =
      (fillRows (eval ⟨known, call known fuel⟩) elem handles c n items).exec t := by
  induction items generalizing n t with
  | nil => rfl
  | cons item rest ih =>
    rw [List.length_cons] at hfit
    have hrow : n / c < handles.length :=
      Nat.div_lt_of_lt_mul (Nat.mul_comm .. ▸ (by omega : n < handles.length * c))
    rw [fillFlat, Run.fillRows,
      Traced.exec_bind_of_ok _ (h.exec_rowAt harray (List.getElem?_eq_getElem hrow))]
    refine Traced.exec_bind_congr rfl fun v u hitem => ?_
    have hslot : (rowPointer elem handles[n / c]).moved (Int.ofNat (n % c)) =
        elementSlot elem handles c n := by
      rw [elementSlot, List.getD, List.getElem?_eq_getElem hrow, Option.getD_some]
    rw [hslot]
    refine Traced.exec_bind_congr rfl fun _ u' hstore => ?_
    exact ih ((h.itemValue harray hitem).store harray (by omega) hstore) (by omega)

omit harray in
/-- Within a row, its slots are filled one after another. -/
theorem fillSlots_row {eval : Expr → Run Value} {k j handle : Nat}
    (hk : handles[k]? = some handle) (hitems : ∀ item ∈ items, item.items? = none)
    (hfit : j + items.length ≤ c) :
    fillSlots eval ((rowPointer elem handle).moved (Int.ofNat j)) elem [c] items =
      Run.fillRows eval elem handles c (k * c + j) items := by
  induction items generalizing j with
  | nil =>
    rw [fillSlots]
    rfl
  | cons item rest ih =>
    obtain ⟨hitem, hrest⟩ := List.forall_mem_cons.mp hitems
    rw [List.length_cons] at hfit
    have hmoved : ((rowPointer elem handle).moved (Int.ofNat j)).moved 1 =
        (rowPointer elem handle).moved (Int.ofNat (j + 1)) := by
      rw [Pointer.moved, Pointer.moved, Pointer.moved, Int.add_assoc]
      rfl
    rw [fillSlots, hmoved, ih hrest (by omega), Run.fillRows, elementSlot_row hk (by omega),
      fillSlot, hitem]
    simp only [List.length_singleton, Nat.lt_irrefl, decide_false, Bool.false_eq_true, if_false,
      Option.isSome_none, Bool.false_and, bind_assoc]
    rfl

variable (known fuel)

/-- A row is filled like the items of its list. -/
theorem Filling.exec_fillRow {k : Nat} (h : Filling m m₁ handles c n t) (hk : k < handles.length)
    {head : Expr} {tail : List Expr} (hitems : ∀ item ∈ head :: tail, item.items? = none)
    (hfit : (head :: tail).length ≤ c) (fillRecord : Nat → Run Unit) :
    (fillSlot (eval ⟨known, call known fuel⟩) (array.moved (Int.ofNat k)) elem true
        (.list head tail) (fun row =>
          fillArray (eval ⟨known, call known fuel⟩) row elem [c] (.list head tail))
        fillRecord).exec t =
      (Run.fillRows (eval ⟨known, call known fuel⟩) elem handles c (k * c)
        (head :: tail)).exec t := by
  have hat := List.getElem?_eq_getElem hk
  rw [fillSlot, if_pos rfl, Traced.exec_bind_of_ok _ (h.exec_rowAt harray hat),
    fillArray_list rfl hfit]
  exact congrArg (·.exec t) (fillSlots_row (j := 0) hat hitems ((Nat.zero_add _).trans_le hfit))

/-- A list of rows fills an array of arrays like the items in them. -/
theorem exec_fillSlots_rowLists {k r : Nat} (hc : 0 < c) (h : Filling m m₁ handles c (k * c) t)
    (hitems : ∀ item ∈ items, item.items? = none)
    (hfit : k * c + items.length ≤ handles.length * c) :
    (fillSlots (eval ⟨known, call known fuel⟩) (array.moved (Int.ofNat k)) elem [r, c]
        (rowLists c items)).exec t =
      (Run.fillRows (eval ⟨known, call known fuel⟩) elem handles c (k * c) items).exec t := by
  induction items using rowLists.induct c generalizing k t with
  | case1 =>
    rw [rowLists, fillSlots]
    rfl
  | case2 head tail ih =>
    obtain ⟨hhead, htail⟩ := List.forall_mem_cons.mp hitems
    rw [List.length_cons] at hfit
    have hk : k < handles.length := Nat.lt_of_mul_lt_mul_right (a := c) (by omega)
    have hlength : (head :: tail.take (c - 1)).length = min (tail.length + 1) c := by
      rw [List.length_cons, List.length_take]
      omega
    have hmoved : (array.moved (Int.ofNat k)).moved 1 = array.moved (Int.ofNat (k + 1)) := by
      rw [Pointer.moved, Pointer.moved, Pointer.moved, Int.add_assoc]
      rfl
    have hsplit : head :: tail = (head :: tail.take (c - 1)) ++ tail.drop (c - 1) := by
      rw [List.cons_append, List.take_append_drop]
    have hrow := h.exec_fillRow harray known fuel hk
      (List.forall_mem_cons.mpr ⟨hhead, fun item hmem => htail item (List.mem_of_mem_take hmem)⟩)
      (hlength.trans_le (Nat.min_le_right _ _)) fun id =>
        fillRecord (eval ⟨known, call known fuel⟩) id elem (.list head (tail.take (c - 1)))
    rw [rowLists, fillSlots, hmoved, hsplit, fillRows_append]
    refine Traced.exec_bind_congr hrow fun _ u hrun => ?_
    have hnext := h.fillRows harray (by rw [hlength]; omega) (hrow ▸ hrun)
    cases hrest : tail.drop (c - 1) with
    | nil =>
      rw [rowLists, fillSlots]
      rfl
    | cons item rest =>
      -- there are further items only if the row is full
      have hmore : (tail.drop (c - 1)).length ≠ 0 := by
        rw [hrest, List.length_cons]
        exact Nat.succ_ne_zero _
      rw [List.length_drop] at hmore
      have hfull : k * c + (head :: tail.take (c - 1)).length = (k + 1) * c := by
        rw [hlength, Nat.succ_mul]
        omega
      rw [hfull] at hnext ⊢
      rw [← hrest]
      refine ih hnext (fun item hmem => htail item (List.mem_of_mem_drop hmem)) ?_
      rw [List.length_drop, Nat.succ_mul]
      omega

/-- The elements behind the items have their zero values still, with all that was made with
them. -/
theorem Filling.isZero (h : Filling m m₁ handles c n t) {k j : Nat} (hk : k < handles.length)
    (hj : j < c) (hle : n ≤ k * c + j) :
    ∃ v, m₁.arena.load ((rowPointer elem handles[k]).moved (Int.ofNat j)) = .ok v ∧
      t.arena.load ((rowPointer elem handles[k]).moved (Int.ofNat j)) = .ok v ∧
      IsZero elem t v := by
  obtain ⟨values, values', hbuffer, hbuffer', hsize, -, hrest⟩ :=
    h.rows k handles[k] (List.getElem?_eq_getElem hk)
  have hindex : ((rowPointer elem handles[k]).moved (Int.ofNat j)).index = Int.ofNat j :=
    Int.zero_add _
  obtain ⟨v, hslot⟩ : ∃ v, values[j]? = some v :=
    ⟨_, Array.getElem?_eq_getElem (Nat.lt_of_lt_of_eq hj hsize.symm)⟩
  refine ⟨v, Arena.load_of_buffer hbuffer hindex hslot,
    Arena.load_of_buffer hbuffer' hindex ((hrest j hj hle).trans hslot), ?_⟩
  obtain ⟨_, hbuffer₁, -, hmade⟩ := harray.rows handles[k] (List.getElem_mem hk)
  cases hbuffer.symm.trans hbuffer₁
  obtain ⟨u, u', hzero, hbefore, hafter, hapart⟩ := hmade _ (Array.mem_of_getElem? hslot)
  refine ⟨u, u', hzero, fun l hl => (hafter.same l hl.1).trans (h.others l ?_ ?_)⟩
  · exact ⟨hafter.made l hl.1, fun hold => hl.2 (hbefore.made l hold)⟩
  · rintro handle hmem rfl
    rcases hapart handle hmem with hlt | hle
    · exact hl.2 hlt
    · exact Nat.not_lt_of_le hle hl.1

end

/-- Filling a new array of arrays from a flat list does the same as filling it from the list that
has the same items in rows: the same state is left, or the same error raised. The elements behind
the items keep their zero values. What is asked of the state in which the array is made is true of
all states of all runs (`Program.sound_of_visits`, `Program.ownership_of_run`). -/
theorem fillArray_flat_eq_inRows {m m₁ : Machine} {owned : Bool} {elem : CType} {r c : Nat}
    {array : Pointer} {head : Expr} {tail : List Expr} (known : Nat → Option CType) (fuel : Nat)
    (hm : m.Sound) (hownership : m.Ownership)
    (hnew : (newArray owned elem [r, c]).exec m = .ok array m₁)
    (hitems : ∀ item ∈ head :: tail, item.items? = none)
    (hfit : (head :: tail).length ≤ r * c) :
    let fill (init : Expr) : Run Unit :=
      fillArray (eval ⟨known, call known fuel⟩) array elem [r, c] init
    (fill (.list head tail)).exec m₁ = (fill (inRows c head tail)).exec m₁ ∧
      ∀ m₂, (fill (.list head tail)).exec m₁ = .ok () m₂ →
        ∀ k < r, ∀ j < c, (head :: tail).length ≤ k * c + j → ∃ row v,
          (rowAt (array.moved (Int.ofNat k))).exec m₂ = .ok row m₂ ∧
          m₁.arena.load (row.moved (Int.ofNat j)) = .ok v ∧
          m₂.arena.load (row.moved (Int.ofNat j)) = .ok v ∧ IsZero elem m₂ v := by
  intro fill
  obtain ⟨hbuilds, handles, rfl, harray⟩ := exists_rows_of_newArray hnew
  have hownership₁ : m₁.Ownership := by
    have horderly := composed_orderly.newArray owned elem [handles.length, c]
    exact Traced.after_of_ok hnew ▸ horderly.ownership hownership
  have hstart := filling_start harray (Domain.good_outside hm hownership hbuilds hownership₁)
  have hfit₀ : 0 + (head :: tail).length ≤ handles.length * c := (Nat.zero_add _).trans_le hfit
  have hc : 0 < c := Nat.pos_of_mul_pos_left (Nat.lt_of_lt_of_le (Nat.succ_pos _) hfit)
  -- Both lists fill the rows one after the other, with the items in the same order.
  have hflat : (fill (.list head tail)).exec m₁ =
      (fillRows (eval ⟨known, call known fuel⟩) elem handles c 0 (head :: tail)).exec m₁ := by
    have hisFlat : isFlat [handles.length, c] (head :: tail) = true := by
      rw [isFlat, Bool.and_eq_true, List.all_eq_true]
      exact ⟨rfl, fun item hmem => by rw [hitems item hmem]; rfl⟩
    have hsize : ¬[handles.length, c].foldl (· * ·) 1 < tail.length + 1 := by
      rw [List.foldl_cons, List.foldl_cons, List.foldl_nil, Nat.one_mul]
      exact Nat.not_lt_of_le hfit
    change (fillArray _ array elem _ (.list head tail)).exec m₁ = _
    rw [fillArray, if_pos hisFlat, if_neg hsize]
    exact exec_fillFlat harray hstart hfit₀
  have hrows : (fill (inRows c head tail)).exec m₁ =
      (fillRows (eval ⟨known, call known fuel⟩) elem handles c 0 (head :: tail)).exec m₁ := by
    have hcount := length_rowLists_le hfit
    rw [rowLists, List.length_cons] at hcount
    change (fillArray _ array elem _ (inRows c head tail)).exec m₁ = _
    have hmoved : array.moved (Int.ofNat 0) = array := by
      rw [Pointer.moved, show Int.ofNat 0 = 0 from rfl, Int.add_zero]
    have hlists := exec_fillSlots_rowLists harray known fuel (k := 0) (r := handles.length) hc
      (Nat.zero_mul c ▸ hstart) hitems (by rwa [Nat.zero_mul])
    rw [rowLists, hmoved, Nat.zero_mul] at hlists
    rw [inRows, fillArray_list rfl hcount, hlists]
  refine ⟨hflat.trans hrows.symm, fun m₂ hrun k hk j hj hle => ?_⟩
  have hfilled := hstart.fillRows harray hfit₀ (hflat ▸ hrun)
  rw [Nat.zero_add] at hfilled
  obtain ⟨v, hold, hload, hzero⟩ := hfilled.isZero harray hk hj hle
  exact ⟨_, v, hfilled.exec_rowAt harray (List.getElem?_eq_getElem hk), hold, hload, hzero⟩

/-- Three numbers fill a row of two and the first element of another one. -/
theorem fillArray_flat_eq_inRows_three :
    let m₁ := (newArray true .int [2, 2]).after .start
    let array : Pointer := ⟨3, 0, some CType.int.pointer⟩
    let tail := [Program.sampleNumber "2" 2 3 1, Program.sampleNumber "3" 3 5 2]
    let fill (init : Expr) : Run Unit :=
      fillArray (eval ⟨fun _ => none, call (fun _ => none) 0⟩) array .int [2, 2] init
    (newArray true .int [2, 2]).exec .start = .ok array m₁ ∧
      (fill (.list (Program.sampleNumber "1" 1 1 0) tail)).exec m₁ =
        (fill (inRows 2 (Program.sampleNumber "1" 1 1 0) tail)).exec m₁ ∧
      ∃ m₂, (fill (.list (Program.sampleNumber "1" 1 1 0) tail)).exec m₁ = .ok () m₂ ∧
        ∃ row v, (rowAt (array.moved 1)).exec m₂ = .ok row m₂ ∧
          m₂.arena.load (row.moved 1) = .ok v ∧ IsZero .int m₂ v := by
  intro m₁ array tail fill
  have hnew : (newArray true .int [2, 2]).exec .start = .ok array m₁ := rfl
  have hitems : ∀ item ∈ Program.sampleNumber "1" 1 1 0 :: tail, item.items? = none := by
    simp only [tail, List.forall_mem_cons]
    exact ⟨rfl, rfl, rfl, List.forall_mem_nil _⟩
  obtain ⟨hsame, hkept⟩ := fillArray_flat_eq_inRows (fun _ => none) 0
    (fun v hv => absurd hv (Machine.not_holds_start v)) Machine.ownership_start hnew hitems
    (by decide)
  have hruns : EStateM.run' (fill (.list (Program.sampleNumber "1" 1 1 0) tail)).exec m₁ =
      some () := by decide +kernel
  obtain ⟨m₂, hrun⟩ := Traced.exists_exec_of_run' hruns
  obtain ⟨row, v, hrow, -, hload, hzero⟩ := hkept m₂ hrun 1 (by decide) 1 (by decide) (by decide)
  exact ⟨hnew, hsame, m₂, hrun, row, v, hrow, hload, hzero⟩

end Run

end MiniC
