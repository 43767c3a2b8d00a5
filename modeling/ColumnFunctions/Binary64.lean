namespace ColumnFunctions

/-- The number `± mantissa * 2 ^ exponent`. Zero has the least exponent; any other number has a
mantissa of 53 bits, or of fewer at the least exponent. -/
structure Binary64 where
  negative : Bool
  mantissa : Nat
  exponent : Int
  deriving DecidableEq, Repr

namespace Binary64

def minExponent : Int := -1074

def maxExponent : Int := 971

def zero (negative : Bool) : Binary64 := ⟨negative, 0, minExponent⟩

def roundDiv (num den : Nat) : Nat :=
  let q := num / den
  let r := num % den
  if den < 2 * r ∨ (2 * r = den ∧ q % 2 = 1) then q + 1 else q

def shifted (num den : Nat) (e : Int) : Nat × Nat :=
  if 0 ≤ e then (num, den <<< e.toNat) else (num <<< (-e).toNat, den)

def exponentOf (num den : Nat) : Int :=
  let e : Int := (num.log2 : Int) - (den.log2 : Int) - 53
  let (a, b) := shifted num den e
  max minExponent (if 1 <<< 53 ≤ a / b then e + 1 else e)

def ofRatio? (negative : Bool) (num den : Nat) : Option Binary64 :=
  if num = 0 then some (zero negative)
  else
    let e := exponentOf num den
    let (a, b) := shifted num den e
    let m := roundDiv a b
    let (m, e) := if m = 1 <<< 53 then (1 <<< 52, e + 1) else (m, e)
    if maxExponent < e then none else some ⟨negative, m, e⟩

def power (e : Int) : Nat × Nat :=
  if 0 ≤ e then (1 <<< e.toNat, 1) else (1, 1 <<< (-e).toNat)

def mul? (x y : Binary64) : Option Binary64 :=
  let (a, b) := power (x.exponent + y.exponent)
  ofRatio? (x.negative != y.negative) (x.mantissa * y.mantissa * a) b

def div? (x y : Binary64) : Option Binary64 :=
  let (a, b) := power (x.exponent - y.exponent)
  ofRatio? (x.negative != y.negative) (x.mantissa * a) (y.mantissa * b)

def ofNat (negative : Bool) (n : Nat) : Binary64 :=
  (ofRatio? negative n 1).getD (zero negative)

def maxPower : Nat := 308

def tenPow (k : Nat) : Binary64 := ofNat false (Nat.pow 10 k)

def divTenPow (x : Binary64) (k : Nat) : Option Binary64 :=
  if k ≤ maxPower then x.div? (tenPow k)
  else if x.mantissa = 0 then some x
  else
    match x.div? (tenPow maxPower) with
    | none => none
    | some y => divTenPow y (k - maxPower)
termination_by k
decreasing_by simp only [maxPower] at *; omega

/-- The number multiplied by a power of ten, in one step. Only zero can be multiplied by a power
beyond `maxPower`. -/
def scaleTen (x : Binary64) : Int → Option Binary64
  | .ofNat k =>
    if k ≤ maxPower then x.mul? (tenPow k)
    else if x.mantissa = 0 then some x
    else none
  | .negSucc k => x.divTenPow (k + 1)

def truncated (x : Binary64) : Nat :=
  if 0 ≤ x.exponent then x.mantissa <<< x.exponent.toNat
  else x.mantissa >>> (-x.exponent).toNat

end Binary64

end ColumnFunctions
