import Mathlib.Tactic.SplitIfs
import MiniC.Memory.Arena

set_option autoImplicit false

/-! # Making, freeing and changing buffers

What making, freeing and changing one buffer does to all buffers. A handle below the next one was
given out; whether it is freed is decided once and for all. -/

namespace MiniC.Arena

/-- Whether a buffer with the given handle was made, and was freed since. -/
def Freed (a : Arena) (h : Nat) : Prop :=
  0 < h ∧ h < a.next ∧ a.buffer? h = none

/-- Whether there is a live buffer with the given handle. -/
def Live (a : Arena) (h : Nat) : Prop :=
  (a.buffer? h).isSome

theorem Live.bounds {a : Arena} {h : Nat} (hlive : a.Live h) : 0 < h ∧ h < a.next := by
  cases h with
  | zero => cases hlive
  | succ n =>
    refine ⟨Nat.succ_pos n, Nat.succ_lt_succ ?_⟩
    apply Nat.lt_of_not_le
    intro hn
    rw [Live, buffer?, Array.getElem?_eq_none hn] at hlive
    cases hlive

theorem Freed.not_live {a : Arena} {h : Nat} (hfreed : a.Freed h) : ¬a.Live h := by
  rw [Live, hfreed.2.2]
  exact Bool.false_ne_true

/-- A handle that was given out names a live buffer or one that was freed. -/
theorem live_or_freed {a : Arena} {h : Nat} (h₀ : 0 < h) (h₁ : h < a.next) :
    a.Live h ∨ a.Freed h := by
  cases hb : a.buffer? h with
  | none => exact .inr ⟨h₀, h₁, hb⟩
  | some values => exact .inl (by rw [Live, hb]; rfl)

@[simp]
theorem buffer?_zero (a : Arena) : a.buffer? 0 = none := rfl

/-! ## Making a buffer -/

@[simp]
theorem next_alloc (a : Arena) (values : Array Value) : (a.alloc values).2.next = a.next + 1 := by
  simp [alloc, next]

theorem buffer?_alloc (a : Arena) (values : Array Value) (h : Nat) :
    (a.alloc values).2.buffer? h = if h = a.next then some values else a.buffer? h := by
  cases h with
  | zero => simp [next]
  | succ n =>
    simp only [alloc, buffer?, next, Array.getElem?_push, Nat.add_right_cancel_iff]
    split_ifs <;> rfl

theorem Freed.alloc {a : Arena} {h : Nat} (hfreed : a.Freed h) (values : Array Value) :
    (a.alloc values).2.Freed h := by
  refine ⟨hfreed.1, ?_, ?_⟩
  · rw [next_alloc]
    exact Nat.lt_succ_of_lt hfreed.2.1
  · rw [buffer?_alloc, if_neg (Nat.ne_of_lt hfreed.2.1)]
    exact hfreed.2.2

/-! ## Freeing buffers -/

@[simp]
theorem next_free (a : Arena) (h : Nat) : (a.free h).next = a.next := by
  cases h with
  | zero => rfl
  | succ n => simp [free, next]

theorem buffer?_free (a : Arena) (h k : Nat) :
    (a.free h).buffer? k = if k = h then none else a.buffer? k := by
  cases h with
  | zero =>
    cases k with
    | zero => rfl
    | succ n => rfl
  | succ n =>
    cases k with
    | zero => rfl
    | succ i =>
      simp only [free, buffer?, Array.getElem?_setIfInBounds, Nat.add_right_cancel_iff]
      by_cases hi : n = i
      · subst hi
        by_cases hn : n < a.buffers.size <;> simp [hn]
      · simp [hi, Ne.symm hi]

/-- The arena after several buffers were freed. -/
def freeAll (a : Arena) (handles : Array Nat) : Arena :=
  handles.foldl free a

@[simp]
theorem next_freeAll (a : Arena) (handles : Array Nat) : (a.freeAll handles).next = a.next := by
  rw [freeAll, ← Array.foldl_toList]
  induction handles.toList generalizing a with
  | nil => rfl
  | cons h rest ih => rw [List.foldl_cons, ih, next_free]

theorem buffer?_freeAll (a : Arena) (handles : Array Nat) (k : Nat) :
    (a.freeAll handles).buffer? k = if k ∈ handles then none else a.buffer? k := by
  simp only [freeAll, ← Array.foldl_toList, ← Array.mem_toList_iff]
  induction handles.toList generalizing a with
  | nil => simp
  | cons h rest ih =>
    simp only [List.foldl_cons, ih, buffer?_free, List.mem_cons]
    by_cases hrest : k ∈ rest
    · simp [hrest]
    · simp [hrest]

theorem Freed.freeAll {a : Arena} {h : Nat} (hfreed : a.Freed h) (handles : Array Nat) :
    (a.freeAll handles).Freed h := by
  refine ⟨hfreed.1, ?_, ?_⟩
  · rw [next_freeAll]
    exact hfreed.2.1
  · rw [buffer?_freeAll, hfreed.2.2, ite_self]

/-! ## Changing a slot -/

@[simp]
theorem next_put (a : Arena) (p : Pointer) (v : Value) : (a.put p v).next = a.next := by
  simp [put, next]

/-- A slot is changed in place: no buffer comes or goes, or changes its size. -/
theorem buffer?_put (a : Arena) (p : Pointer) (v : Value) (h : Nat) :
    ((a.put p v).buffer? h).map Array.size = (a.buffer? h).map Array.size := by
  cases h with
  | zero => rfl
  | succ n =>
    simp only [put, buffer?, Array.getElem?_modify]
    split_ifs
    · cases a.buffers[n]? with
      | none => rfl
      | some buffer =>
        cases buffer with
        | none => rfl
        | some values => simp
    · rfl

/-- A slot that is changed leaves all other buffers as they are. -/
theorem buffer?_put_of_ne (a : Arena) (p : Pointer) (v : Value) {handle : Nat}
    (hne : handle ≠ p.buffer) (hp : p.buffer ≠ 0) :
    (a.put p v).buffer? handle = a.buffer? handle := by
  cases handle with
  | zero => rfl
  | succ n =>
    rw [put, buffer?, buffer?, Array.getElem?_modify, if_neg (by omega)]

theorem buffer?_put_eq_none (a : Arena) (p : Pointer) (v : Value) (h : Nat) :
    (a.put p v).buffer? h = none ↔ a.buffer? h = none := by
  rw [← Option.map_eq_none_iff (f := Array.size), buffer?_put, Option.map_eq_none_iff]

theorem Freed.put {a : Arena} {h : Nat} (hfreed : a.Freed h) (p : Pointer) (v : Value) :
    (a.put p v).Freed h := by
  refine ⟨hfreed.1, ?_, ?_⟩
  · rw [next_put]
    exact hfreed.2.1
  · rw [buffer?_put_eq_none]
    exact hfreed.2.2

/-- What is true of two arenas between which buffers were made, and changed in place. -/
structure Grows (a a' : Arena) : Prop where
  next : a.next ≤ a'.next
  freed : ∀ h, a.Freed h → a'.Freed h
  sizes : ∀ h values, a.buffer? h = some values →
    ∃ values', a'.buffer? h = some values' ∧ values'.size = values.size

theorem Grows.refl (a : Arena) : a.Grows a :=
  ⟨Nat.le_refl _, fun _ => id, fun _ values h => ⟨values, h, rfl⟩⟩

theorem Grows.trans {a b c : Arena} (h₁ : a.Grows b) (h₂ : b.Grows c) : a.Grows c where
  next := Nat.le_trans h₁.next h₂.next
  freed h hfreed := h₂.freed h (h₁.freed h hfreed)
  sizes h values hvalues := by
    obtain ⟨values', hvalues', hsize⟩ := h₁.sizes h values hvalues
    obtain ⟨values'', hvalues'', hsize'⟩ := h₂.sizes h values' hvalues'
    exact ⟨values'', hvalues'', hsize'.trans hsize⟩

theorem Grows.live {a a' : Arena} (hgrows : a.Grows a') {h : Nat} (hlive : a.Live h) :
    a'.Live h := by
  obtain ⟨values, hvalues⟩ := Option.isSome_iff_exists.mp hlive
  obtain ⟨values', hvalues', -⟩ := hgrows.sizes h values hvalues
  rw [Live, hvalues']
  rfl

theorem grows_alloc (a : Arena) (values : Array Value) : a.Grows (a.alloc values).2 where
  next := by rw [next_alloc]; exact Nat.le_succ _
  freed _ hfreed := hfreed.alloc values
  sizes h old hold := by
    have hlive : a.Live h := by rw [Live, hold]; rfl
    refine ⟨old, ?_, rfl⟩
    rw [buffer?_alloc, if_neg (Nat.ne_of_lt hlive.bounds.2), hold]

theorem grows_put (a : Arena) (p : Pointer) (v : Value) : a.Grows (a.put p v) where
  next := Nat.le_of_eq (a.next_put p v).symm
  freed _ hfreed := hfreed.put p v
  sizes h values hvalues := by
    have hsize := a.buffer?_put p v h
    rw [hvalues, Option.map_some, Option.map_eq_some_iff] at hsize
    exact hsize

/-! ## Pointers to buffers that were freed -/

theorem Freed.locate {a : Arena} {p : Pointer} (hfreed : a.Freed p.buffer) :
    a.locate p = .error .invalidIndex := by
  have hnull : p.isNull = false := by
    rw [Pointer.isNull, decide_eq_false_iff_not]
    exact Nat.ne_of_gt hfreed.1
  simp [Arena.locate, hnull, hfreed.2.2]

/-- Nothing is read through a pointer to a buffer that was freed. -/
theorem Freed.load {a : Arena} {p : Pointer} (hfreed : a.Freed p.buffer) :
    a.load p = .error .invalidIndex := by
  rw [Arena.load, hfreed.locate]
  rfl

/-- Nothing is changed through a pointer to a buffer that was freed. -/
theorem Freed.store {a : Arena} {p : Pointer} (hfreed : a.Freed p.buffer) (v : Value) :
    a.store p v = .error .invalidIndex := by
  rw [Arena.store, hfreed.locate]
  rfl

end MiniC.Arena
