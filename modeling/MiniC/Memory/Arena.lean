import MiniC.Value.Fault

set_option autoImplicit false

/-! # The arena

The buffers of a run. A buffer gets the next handle when it is made, counting from one, and no
handle is ever given out twice: a buffer that was freed leaves its handle unused, so that a pointer
into it reaches nothing from then on. -/

namespace MiniC

/-- The buffers made so far: at place `h - 1` the buffer with the handle `h`, or nothing if it was
freed. -/
structure Arena where
  buffers : Array (Option (Array Value))
deriving Repr, Inhabited

namespace Arena

/-- No buffer was made. -/
def empty : Arena := ⟨#[]⟩

/-- The handle of the buffer that is made next. -/
def next (a : Arena) : Nat := a.buffers.size + 1

/-- The buffer with a handle, while it is live. -/
def buffer? (a : Arena) : Nat → Option (Array Value)
  | 0 => none
  | n + 1 => a.buffers[n]?.join

/-- The handles of the live buffers, in ascending order. -/
def live (a : Arena) : List Nat :=
  (List.range a.next).filter fun h => (a.buffer? h).isSome

/-- Makes a buffer with the given contents. -/
def alloc (a : Arena) (values : Array Value) : Nat × Arena :=
  (a.next, ⟨a.buffers.push (some values)⟩)

/-- Frees a buffer. A handle that names no live buffer is left alone. -/
def free (a : Arena) : Nat → Arena
  | 0 => a
  | n + 1 => ⟨a.buffers.setIfInBounds n none⟩

/-- The contents of a live buffer. -/
def contents (a : Arena) (handle : Nat) : Except Fault (Array Value) :=
  match a.buffer? handle with
  | none => .error .invalidIndex
  | some values => .ok values

/-- The live buffer that a pointer points into, and the place in it. -/
def locate (a : Arena) (p : Pointer) : Except Fault (Array Value × Nat) :=
  if p.isNull then .error .nullDereference
  else
    match a.buffer? p.buffer with
    | none => .error .invalidIndex
    | some values =>
      if 0 ≤ p.index && p.index < Int.ofNat values.size then .ok (values, p.index.toNat)
      else .error .invalidIndex

/-- The value that a pointer points to. -/
def load (a : Arena) (p : Pointer) : Except Fault Value := do
  let (values, i) ← a.locate p
  match values[i]? with
  | none => throw .invalidIndex
  | some v => return v

/-- The arena with `v` in the slot that a pointer points to, if there is such a slot. -/
def put (a : Arena) (p : Pointer) (v : Value) : Arena :=
  ⟨a.buffers.modify (p.buffer - 1) fun values =>
    values.map (·.setIfInBounds p.index.toNat v)⟩

/-- The arena after the value that a pointer points to was replaced. -/
def store (a : Arena) (p : Pointer) (v : Value) : Except Fault Arena := do
  let _ ← a.locate p
  return a.put p v

/-- The codes of the characters in front of the first zero. A code counts modulo 256. -/
def codesToZero : List Value → Except Fault (List Nat)
  | [] => .error .invalidIndex
  | .int n :: rest =>
    if n.value = 0 then .ok []
    else (codesToZero rest).map ((n.value % 256).toNat :: ·)
  | _ :: _ => .error .notAString

/-- The codes of the characters from a pointer on up to the first zero. -/
def readString (a : Arena) (p : Pointer) : Except Fault (List Nat) := do
  let (values, i) ← a.locate p
  codesToZero (values.toList.drop i)

end Arena

end MiniC
