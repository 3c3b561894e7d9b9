import MiniC.Proofs.Lexing.Driver.Forward

set_option autoImplicit false

/-! # The loop of the driver

The driver is called again and again, until the whole text is read or there is an error. Since every
call gets on, the loop ends after a number of calls that is bounded by the length of the text. -/

namespace MiniC

open CharClass

namespace Driver

variable {text : List Char} {d t : Driver}

/-! ## Some calls, and then some more -/

theorem calls_of_length_le (h : text.length ≤ d.offset) (n : Nat) : calls text n d = .ok d := by
  cases n with
  | zero => rfl
  | succ n => rw [calls, if_neg (Nat.not_lt.mpr h)]

theorem calls_succ (h : d.offset < text.length) (n : Nat) :
    calls text (n + 1) d = d.call text >>= calls text n := by
  rw [calls, if_pos h]

theorem calls_add (n k : Nat) (d : Driver) :
    calls text (n + k) d = calls text n d >>= calls text k := by
  induction n generalizing d with
  | zero =>
    rw [Nat.zero_add]
    rfl
  | succ n ih =>
    by_cases hlt : d.offset < text.length
    · rw [Nat.succ_add, calls_succ hlt, calls_succ hlt]
      cases d.call text with
      | error e => rfl
      | ok t => exact ih t
    · rw [calls_of_length_le (Nat.not_lt.mp hlt), calls_of_length_le (Nat.not_lt.mp hlt)]
      exact (calls_of_length_le (Nat.not_lt.mp hlt) k).symm

/-- Whether the driver comes to a state, or to the end of the loop with an error, after some
calls. -/
def Comes (text : List Char) (d : Driver) (r : Except Failure Driver) : Prop :=
  ∃ n, calls text n d = r

theorem Comes.refl (d : Driver) : d.Comes text (.ok d) := ⟨0, rfl⟩

theorem Comes.trans {r : Except Failure Driver} (h : d.Comes text (.ok t)) (h' : t.Comes text r) :
    d.Comes text r := by
  obtain ⟨n, hn⟩ := h
  obtain ⟨k, hk⟩ := h'
  refine ⟨n + k, ?_⟩
  rw [calls_add, hn]
  exact hk

theorem comes_call (h : d.offset < text.length) : d.Comes text (d.call text) := by
  refine ⟨1, ?_⟩
  rw [calls_succ h]
  cases d.call text <;> rfl

/-- Whether a result of the loop is final: the whole text is read, or there was an error. -/
def IsFinal (text : List Char) : Except Failure Driver → Prop
  | .ok d => text.length ≤ d.offset
  | .error _ => True

/-- Nothing happens after the end of the loop. -/
theorem calls_of_isFinal {r : Except Failure Driver} {n m : Nat} (h : calls text n d = r)
    (hfinal : IsFinal text r) (hle : n ≤ m) : calls text m d = r := by
  obtain ⟨k, rfl⟩ := Nat.exists_eq_add_of_le hle
  rw [calls_add, h]
  cases r with
  | error e => rfl
  | ok t => exact calls_of_length_le hfinal k

/-! ## What every call does, all calls do -/

theorem placed_init (hlt : 0 < text.length) : init.Placed text where
  le := Nat.zero_le _
  ended h := absurd h (Nat.ne_of_lt hlt)
  pos := rfl
  point := by simp [init]
  slash := by simp [init]
  quoted := by simp [init]

/-- What `n` calls may come to: a state that is not behind the first one, and of a lower rank if it
is at the same place, or an error at a character of the text. -/
def YieldsAfter (text : List Char) (n : Nat) (d : Driver) : Except Failure Driver → Prop
  | .ok t => t.Placed text ∧ d.offset ≤ t.offset ∧
      (d.offset < text.length → t.offset = d.offset → n + t.rank text ≤ d.rank text)
  | .error (.rejected e) => ∃ k < text.length, e.pos = Position.start.after (text.take k)
  | .error .outside => False

theorem yieldsAfter_calls (htext : text.getLast? = some ' ') (n : Nat) (hd : d.Placed text) :
    d.YieldsAfter text n (calls text n d) := by
  induction n generalizing d with
  | zero => exact ⟨hd, Nat.le_refl _, fun _ _ => Nat.le_of_eq (Nat.zero_add _)⟩
  | succ n ih =>
    by_cases hlt : d.offset < text.length
    · have hcall := yields_call hd htext hlt
      rw [calls_succ hlt]
      match hresult : d.call text with
      | .error (.rejected e) =>
        rw [hresult] at hcall
        obtain ⟨k, hk, -, hpos⟩ := hcall
        exact ⟨k, hk, hpos⟩
      | .error .outside =>
        rw [hresult] at hcall
        exact hcall
      | .ok t =>
        rw [hresult] at hcall
        obtain ⟨ht, hforward⟩ := hcall
        have hrest := ih ht
        show d.YieldsAfter text (n + 1) (calls text n t)
        match calls text n t, hrest with
        | .error (.rejected e), hrest => exact hrest
        | .ok t', ⟨ht', hle, hrank⟩ =>
          refine ⟨ht', by omega, fun _ hsame => ?_⟩
          have hlower := hrank (by omega) (by omega)
          omega
    · rw [calls_of_length_le (Nat.not_lt.mp hlt)]
      exact ⟨hd, Nat.le_refl _, fun h => absurd h hlt⟩

/-- A call that passes something may raise the rank by three, so four calls for each character are
enough. -/
theorem isFinal_calls (htext : text.getLast? = some ' ') {n : Nat} (hd : d.Placed text)
    (hn : 4 * (text.length - d.offset) + d.rank text ≤ n + 2) : IsFinal text (calls text n d) := by
  induction n generalizing d with
  | zero =>
    show text.length ≤ d.offset
    omega
  | succ n ih =>
    by_cases hlt : d.offset < text.length
    · have hcall := yields_call hd htext hlt
      rw [calls_succ hlt]
      match hresult : d.call text with
      | .error e => trivial
      | .ok t =>
        rw [hresult] at hcall
        obtain ⟨ht, hforward⟩ := hcall
        -- the call either lowered the rank or passed a character, which makes up for any rank
        have hle := ht.le
        have hrank : t.rank text ≤ 3 := Mode.rank_le _ _
        exact ih ht (by omega)
    · rw [calls_of_length_le (Nat.not_lt.mp hlt)]
      exact Nat.not_lt.mp hlt

end Driver

end MiniC
