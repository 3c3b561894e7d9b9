set_option autoImplicit false

/-! # The exact value of a binary floating number

A finite binary64 number is a significand times a power of two, up to sign. Everything here works on
that exact value in unbounded integers: comparison with an integer, truncation, and rounding to the
precision of single floating numbers. -/

namespace MiniC.Binary64

/-- What a binary64 number is. -/
inductive Exact
  | nan
  | infinite (negative : Bool)
  /-- The number `significand * 2 ^ exponent`, or its opposite. -/
  | finite (negative : Bool) (significand : Nat) (exponent : Int)
deriving DecidableEq, Repr

/-- The exact value of a binary64 number, from the three fields of its bits. -/
def exact (x : Float) : Exact :=
  let bits := x.toBits.toNat
  let negative := bits / Nat.pow 2 63 = 1
  let biased := bits / Nat.pow 2 52 % Nat.pow 2 11
  let fraction := bits % Nat.pow 2 52
  if biased = 2047 then
    if fraction = 0 then .infinite negative else .nan
  else if biased = 0 then .finite negative fraction (-1074)
  else .finite negative (Nat.pow 2 52 + fraction) (Int.ofNat biased - 1075)

/-- The number with the given sign, and `significand * 2 ^ exponent` as its absolute value, where
`significand` is at most `2 ^ 53` and has its full 53 bits unless `exponent` is the least one,
`-1074`. Adding the significand to the exponent field leaves out its leading bit, and a significand
of `2 ^ 53` carries into the exponent as it should. -/
def encode (negative : Bool) (significand : Nat) (exponent : Int) : Float :=
  let sign := if negative then Nat.pow 2 63 else 0
  Float.ofBits (UInt64.ofNat (sign + (exponent + 1074).toNat * Nat.pow 2 52 + significand))

/-- Zero with the given sign. -/
def zero (negative : Bool) : Float :=
  encode negative 0 (-1074)

/-- Infinity with the given sign. -/
def infinity (negative : Bool) : Float :=
  encode negative 0 (2047 - 1074)

/-- The quotient rounded to the nearest natural number, and a half to the even neighbour. -/
def roundDiv (num den : Nat) : Nat :=
  let q := num / den
  let twice := 2 * (num % den)
  if twice < den then q
  else if den < twice then q + 1
  else if q % 2 = 0 then q
  else q + 1

/-- How many bits a natural number has. -/
def bitCount (n : Nat) : Nat :=
  if n = 0 then 0 else n.log2 + 1

/-- The nearest number that has at most 24 significant bits and is a multiple of `2 ^ -149`, a tie
going to the even neighbour. What would be `2 ^ 128` or more is infinite. -/
def toSingle (x : Float) : Float :=
  match exact x with
  | .nan => x
  | .infinite _ => x
  | .finite negative m e =>
    let unit := max (e + Int.ofNat (bitCount m) - 24) (-149)
    let shift := (unit - e).toNat
    let rounded := roundDiv m (Nat.pow 2 shift)
    if rounded = 0 then zero negative
    else if 128 < unit + Int.ofNat (bitCount rounded) then infinity negative
    else encode negative (rounded * Nat.pow 2 shift) e

/-- The integer part of a number, towards zero, if the number is finite. -/
def truncate (x : Float) : Option Int :=
  match exact x with
  | .finite negative m e =>
    let n : Int := if e < 0 then m / Int.pow 2 (-e).toNat else m * Int.pow 2 e.toNat
    some (if negative then -n else n)
  | _ => none

/-- Whether an integer is rounded to no finite number: from the middle between the largest one and
`2 ^ 1024` on, where the first 54 of 1024 bits are ones. -/
def exceeds (n : Int) : Bool :=
  Nat.pow 2 54 - 1 ≤ n.natAbs >>> 970

/-- How an integer compares with a number; it compares with no NaN. -/
def compareInt (n : Int) (x : Float) : Option Ordering :=
  match exact x with
  | .nan => none
  | .infinite negative => some (if negative then .gt else .lt)
  | .finite negative m e =>
    let signed : Int := if negative then -(m : Int) else m
    some (if e < 0 then compare (n * Int.pow 2 (-e).toNat) signed
      else compare n (signed * Int.pow 2 e.toNat))

end MiniC.Binary64
