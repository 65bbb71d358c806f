import FlowBasic.Decimal.Shortest

namespace FlowBasic

structure Exponent where
  negative : Bool
  digits : List Digit
deriving DecidableEq

/-- The parts of a number in a document; without fraction digits there is no point. -/
structure Numeral where
  negative : Bool
  whole : List Digit
  fraction : List Digit
  exponent : Option Exponent
deriving DecidableEq

namespace Numeral

def signChars (negative : Bool) : List Char := if negative then ['-'] else []

def chars (n : Numeral) : List Char :=
  signChars n.negative ++ n.whole.map Digit.char ++
    (if n.fraction.isEmpty then [] else '.' :: n.fraction.map Digit.char) ++
    (n.exponent.elim [] fun e => 'e' :: (signChars e.negative ++ e.digits.map Digit.char))

def takeDigits : List Char → List Digit × List Char
  | [] => ([], [])
  | c :: cs =>
    match Digit.ofChar? c with
    | none => ([], c :: cs)
    | some d => let (ds, rest) := takeDigits cs; (d :: ds, rest)

theorem takeDigits_map_char (ds : List Digit) : takeDigits (ds.map Digit.char) = (ds, []) := by
  induction ds with
  | nil => rfl
  | cons d ds ih => simp [takeDigits, Digit.ofChar?_char, ih]

/-- A whole part has a digit, and zero first only when it is alone. -/
def isWhole : List Digit → Bool
  | [] => false
  | [_] => true
  | d :: _ => d.val ≠ 0

def takeFraction? : List Char → Option (List Digit × List Char)
  | '.' :: cs =>
    let (ds, rest) := takeDigits cs
    if ds.isEmpty then none else some (ds, rest)
  | cs => some ([], cs)

def takeSign (plus : Bool) : List Char → Bool × List Char
  | '-' :: cs => (true, cs)
  | c :: cs => (false, if plus && c = '+' then cs else c :: cs)
  | [] => (false, [])

def takeExponent? : List Char → Option (Option Exponent × List Char)
  | [] => some (none, [])
  | c :: cs =>
    if c = 'e' || c = 'E' then
      let (negative, cs) := takeSign true cs
      let (ds, rest) := takeDigits cs
      if ds.isEmpty then none else some (some ⟨negative, ds⟩, rest)
    else some (none, c :: cs)

def ofChars? (cs : List Char) : Option Numeral := do
  let (negative, cs) := takeSign false cs
  let (whole, cs) := takeDigits cs
  guard (isWhole whole)
  let (fraction, cs) ← takeFraction? cs
  let (exponent, cs) ← takeExponent? cs
  guard cs.isEmpty
  return { negative, whole, fraction, exponent }

def ofNat (n : Nat) : Numeral := ⟨false, Decimal.digits n, [], none⟩

/-- Only digits stand for a natural number. -/
def natural? (n : Numeral) : Option Nat :=
  if n.negative || !n.fraction.isEmpty || n.exponent.isSome then none else some (Decimal.value n.whole)

theorem natural?_ofNat (n : Nat) : (ofNat n).natural? = some n := by
  simp [natural?, ofNat, Decimal.value_digits]

/-- Takes in digits as long as the number fits into 64 bits. -/
def absorb : Nat → List Digit → Nat × List Digit
  | v, [] => (v, [])
  | v, d :: ds => if 10 * v + d.val < UInt64.size then absorb (10 * v + d.val) ds else (v, d :: ds)

def powerOfTen (e : Nat) : Float := Float.ofScientific 1 false e

/-- Multiplies or divides by a power of ten, in steps where it is too small to be a double. What is too
large to be a double has no value. -/
def scaled? : Nat → Float → Int → Option Float
  | 0, f, _ => some f
  | fuel + 1, f, e =>
    if e.natAbs ≤ 308 then
      if 0 ≤ e then
        let g := f * powerOfTen e.natAbs
        if g.isInf then none else some g
      else some (f / powerOfTen e.natAbs)
    else if f == 0 then some f
    else if 0 ≤ e then none
    else scaled? fuel (f / powerOfTen 308) (e + 308)

/-- The exponent that is written. -/
def shift (n : Numeral) : Int :=
  n.exponent.elim 0 fun e => if e.negative then -(Decimal.value e.digits : Int) else Decimal.value e.digits

/-- The double of a numeral: the first digits that fit into 64 bits, scaled once by a power of ten, which
may be one off the nearest double. -/
def double? (n : Numeral) : Option Float :=
  let (v, left) := absorb 0 n.whole
  let (w, rest) := absorb v n.fraction
  let e := (left.length : Int) - (n.fraction.length - rest.length : Nat) + n.shift
  (scaled? 3 (UInt64.ofNat w).toFloat e).map fun f => if n.negative then -f else f

/-- Doubles from `1e-5` up to `1e16` are written without an exponent, and always with a point. -/
def ofSignificant (negative : Bool) (s : Significant) : Numeral :=
  if 0 < s.point && s.point ≤ 16 then
    let places := s.point.toNat
    let whole := s.digits.take places ++ List.replicate (places - s.digits.length) .zero
    let fraction := s.digits.drop places
    ⟨negative, whole, if fraction.isEmpty then [.zero] else fraction, none⟩
  else if -5 < s.point && s.point ≤ 0 then
    ⟨negative, [.zero], List.replicate (-s.point).toNat .zero ++ s.digits, none⟩
  else
    let e := s.point - 1
    ⟨negative, s.digits.take 1, s.digits.drop 1, some ⟨e < 0, Decimal.digits e.natAbs⟩⟩

/-- The numeral of a finite double. -/
def ofDouble (x : Float) : Numeral :=
  let b := Binary.ofFloat x
  if b.mantissa = 0 then ⟨b.negative, [.zero], [.zero], none⟩
  else ofSignificant b.negative (.ofBinary b)

end Numeral

end FlowBasic
