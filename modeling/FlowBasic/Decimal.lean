namespace FlowBasic

abbrev Digit := Fin 10

namespace Digit

def zero : Digit := ⟨0, by decide⟩

def char (d : Digit) : Char := Char.ofNat (48 + d.val)

def ofChar? (c : Char) : Option Digit :=
  if h : 48 ≤ c.toNat ∧ c.toNat < 58 then some ⟨c.toNat - 48, by omega⟩ else none

theorem ofChar?_char (d : Digit) : ofChar? d.char = some d := by
  revert d; decide

end Digit

namespace Decimal

/-- Prepends the digits of a number to the digits already written. -/
def digitsOnto : Nat → Nat → List Digit → List Digit
  | 0, _, done => done
  | fuel + 1, n, done =>
    let done := ⟨n % 10, Nat.mod_lt n (by decide)⟩ :: done
    if n < 10 then done else digitsOnto fuel (n / 10) done

/-- The digits of a number; zero has one digit. -/
def digits (n : Nat) : List Digit := digitsOnto (n + 1) n []

/-- The number whose digits are those of `v` and then the given ones. -/
def valueFrom (v : Nat) : List Digit → Nat
  | [] => v
  | d :: ds => valueFrom (10 * v + d.val) ds

def value (ds : List Digit) : Nat := valueFrom 0 ds

def text (n : Nat) : String := String.ofList ((digits n).map Digit.char)

theorem value_digitsOnto (fuel n : Nat) (done : List Digit) (h : n < fuel) :
    value (digitsOnto fuel n done) = valueFrom n done := by
  induction fuel generalizing n done with
  | zero => omega
  | succ fuel ih =>
    simp only [digitsOnto]
    split
    · next small =>
      have hn : 10 * 0 + n % 10 = n := by omega
      simp only [value, valueFrom, hn]
    · next large =>
      have hn : 10 * (n / 10) + n % 10 = n := by omega
      rw [ih _ _ (by omega)]
      simp only [valueFrom, hn]

theorem value_digits (n : Nat) : value (digits n) = n :=
  value_digitsOnto (n + 1) n [] (Nat.lt_succ_self n)

end Decimal

end FlowBasic
