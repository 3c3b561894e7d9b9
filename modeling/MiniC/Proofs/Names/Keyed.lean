import MiniC.Run.Machine

set_option autoImplicit false

/-! # Things under keys

Scopes, functions and histories are lists of things under keys, in which the first thing of a key
counts. Here is what is found in such a list after it was changed. -/

namespace MiniC

variable {α β : Type}

theorem lookup_cons_ite [BEq α] [LawfulBEq α] [DecidableEq α] (k : α) (b : β) (l : List (α × β))
    (n : α) : ((k, b) :: l).lookup n = if n = k then some b else l.lookup n := by
  rw [List.lookup_cons]
  by_cases hn : n = k
  · subst hn
    simp
  · rw [beq_eq_false_iff_ne.mpr hn, if_neg hn]

/-- What is found under a key stands in the list. -/
theorem mem_of_lookup [BEq α] [LawfulBEq α] {l : List (α × β)} {k : α} {b : β}
    (h : l.lookup k = some b) : (k, b) ∈ l := by
  obtain ⟨before, rest, rfl, -⟩ := List.lookup_eq_some_iff.mp h
  exact List.mem_append_right _ List.mem_cons_self

/-- Things of one key are taken out without touching those of another one. -/
theorem lookup_filter_ne {n id : Nat} (hn : n ≠ id) (l : List (Nat × β)) :
    (l.filter fun (k, _) => k ≠ id).lookup n = l.lookup n := by
  induction l with
  | nil => rfl
  | cons pair rest ih =>
    obtain ⟨k, known⟩ := pair
    by_cases hk : k = id
    · rw [List.filter_cons_of_neg (by simpa using hk), ih, lookup_cons_ite, if_neg (hk ▸ hn)]
    · rw [List.filter_cons_of_pos (by simpa using hk), lookup_cons_ite, lookup_cons_ite, ih]

/-- What is found when all things of a key got replaced. -/
theorem lookup_replace [DecidableEq α] (l : List (α × β)) (id : α) (b : β) (n : α) :
    (l.map fun (k, old) => if k = id then (k, b) else (k, old)).lookup n =
      if n = id then (l.lookup n).map fun _ => b else l.lookup n := by
  induction l with
  | nil => simp
  | cons pair rest ih =>
    obtain ⟨k, known⟩ := pair
    have hpair : (if k = id then (k, b) else (k, known)) = (k, if k = id then b else known) := by
      split <;> rfl
    rw [List.map_cons]
    dsimp only
    rw [hpair, lookup_cons_ite, lookup_cons_ite, ih]
    by_cases hk : n = k
    · subst hk
      by_cases hn : n = id <;> simp [hn]
    · rw [if_neg hk, if_neg hk]

theorem lookup_setUnder (id : Nat) (new : β) (l : List (Nat × β)) (n : Nat) :
    (setUnder id new l).lookup n = if n = id then some new else l.lookup n := by
  induction l with
  | nil => exact lookup_cons_ite id new [] n
  | cons pair rest ih =>
    obtain ⟨k, old⟩ := pair
    rw [setUnder]
    split
    · rename_i hk
      rw [lookup_cons_ite, lookup_cons_ite, hk]
      by_cases hn : n = id
      · rw [if_pos hn, if_pos hn]
      · rw [if_neg hn, if_neg hn, if_neg hn]
    · rename_i hk
      rw [lookup_cons_ite, lookup_cons_ite, ih]
      by_cases hn : n = id
      · rw [if_neg (hn ▸ Ne.symm hk), if_pos hn, if_pos hn]
      · rw [if_neg hn, if_neg hn]

/-- What stands in a list after a thing was set is that thing, or stood there before. -/
theorem mem_setUnder {id : Nat} {new : β} {l : List (Nat × β)} {entry : Nat × β}
    (h : entry ∈ setUnder id new l) : entry = (id, new) ∨ entry ∈ l := by
  induction l with
  | nil => exact .inl (List.mem_singleton.mp h)
  | cons pair rest ih =>
    obtain ⟨k, old⟩ := pair
    rw [setUnder] at h
    split at h
    · rcases List.mem_cons.mp h with rfl | h
      · exact .inl rfl
      · exact .inr (List.mem_cons_of_mem _ h)
    · rcases List.mem_cons.mp h with rfl | h
      · exact .inr List.mem_cons_self
      · rcases ih h with rfl | h
        · exact .inl rfl
        · exact .inr (List.mem_cons_of_mem _ h)

end MiniC
