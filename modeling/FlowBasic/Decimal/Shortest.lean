import FlowBasic.Decimal

namespace FlowBasic

/-- A finite double is its mantissa times a power of two. -/
structure Binary where
  negative : Bool
  mantissa : Nat
  exponent : Int
deriving DecidableEq

namespace Binary

/-- The leading bit of a normal mantissa, which is not stored. -/
def hiddenBit : Nat := 0x10000000000000

def exponentBits (x : Float) : Nat := x.toBits.toNat / hiddenBit % 2048

def isFinite (x : Float) : Bool := exponentBits x ≠ 2047

def ofFloat (x : Float) : Binary :=
  let bits := x.toBits.toNat
  let fraction := bits % hiddenBit
  let e := exponentBits x
  { negative := 0x8000000000000000 ≤ bits
    mantissa := if e = 0 then fraction else hiddenBit + fraction
    exponent := (max e 1 : Nat) - 1075 }

end Binary

/-- The numbers that round to a double, from `low` to `high` around `value`, all over `scale`. The ends
belong to it when it is closed. -/
structure Band where
  low : Nat
  value : Nat
  high : Nat
  scale : Nat
  closed : Bool

namespace Band

/-- Below a power of two the doubles lie twice as close. -/
def ofBinary (b : Binary) : Band :=
  let up := Nat.pow 2 (b.exponent - 2).toNat
  let gap := if b.mantissa = Binary.hiddenBit && b.exponent > -1074 then 1 else 2
  { low := (4 * b.mantissa - gap) * up
    value := 4 * b.mantissa * up
    high := (4 * b.mantissa + 2) * up
    scale := Nat.pow 2 (2 - b.exponent).toNat
    closed := b.mantissa % 2 = 0 }

def lt (closed : Bool) (a b : Nat) : Bool := if closed then a ≤ b else a < b

/-- The multiple of a power of ten in the band that is nearest to the value; a tie goes to the even one. -/
def multiple? (b : Band) (p : Int) : Option Nat :=
  let up := Nat.pow 10 p.toNat * b.scale
  let down := Nat.pow 10 (-p).toNat
  let inside (c : Nat) : Bool := lt b.closed (b.low * down) (c * up) && lt b.closed (c * up) (b.high * down)
  let c := b.value * down / up
  let rest := b.value * down % up
  match inside c, inside (c + 1) with
  | true, true =>
    some (if 2 * rest < up then c else if up < 2 * rest then c + 1 else if c % 2 = 0 then c else c + 1)
  | true, false => some c
  | false, true => some (c + 1)
  | false, false => none

/-- Tries ever finer powers of ten; a double is found within seventeen digits. -/
def shortest (b : Band) : Nat → Int → Nat × Int
  | 0, p => (0, p)
  | fuel + 1, p =>
    match b.multiple? p with
    | some c => (c, p)
    | none => shortest b fuel (p - 1)

/-- A power of ten that is not below the value's first digit. -/
def topPower (b : Band) : Int :=
  if b.scale ≤ b.value then (Decimal.digits (b.value / b.scale)).length - 1
  else 1 - (Decimal.digits (b.scale / b.value)).length

end Band

/-- Digits with the position of the point: a first digit `d` stands for `d * 10 ^ (point - 1)`. -/
structure Significant where
  digits : List Digit
  point : Int
deriving DecidableEq

def dropTrailingZeros (ds : List Digit) : List Digit := (ds.reverse.dropWhile (·.val = 0)).reverse

/-- The shortest digits of a positive double. -/
def Significant.ofBinary (b : Binary) : Significant :=
  let band := Band.ofBinary b
  let (c, p) := band.shortest 20 band.topPower
  let ds := Decimal.digits c
  ⟨dropTrailingZeros ds, p + ds.length⟩

end FlowBasic
