import ColumnFunctions.Binary64

namespace ColumnFunctions

structure Decimal where
  digits : Nat
  exponent : Int
  deriving DecidableEq, Repr

namespace Decimal

def carry (d : Decimal) : Decimal :=
  if d.digits = 10 then ⟨1, d.exponent + 1⟩ else d

def digitChars (d : Decimal) : List Char := Nat.toDigits 10 d.digits

def order (d : Decimal) : Int := d.exponent + d.digitChars.length - 1

def positional (d : Decimal) (point : String) : String :=
  let ds := d.digitChars
  if 0 ≤ d.exponent then String.ofList (ds ++ List.replicate d.exponent.toNat '0') ++ point
  else if 0 ≤ d.order then
    let n := d.order.toNat + 1
    String.ofList (ds.take n ++ '.' :: ds.drop n)
  else String.ofList ('0' :: '.' :: List.replicate (-d.order - 1).toNat '0' ++ ds)

def scientific (d : Decimal) : String :=
  let point := match d.digitChars with
    | [c] => [c]
    | c :: rest => c :: '.' :: rest
    | [] => []
  let sign := if 0 ≤ d.order then "e+" else "e-"
  String.ofList point ++ sign ++ toString d.order.natAbs

end Decimal

namespace Binary64

inductive Tie where
  | even
  | up

/-- The numbers that round to a double, in quarters of its last place. The ends belong to them if
the mantissa is even. -/
structure Interval where
  low : Nat
  value : Nat
  high : Nat
  closed : Bool

def interval (x : Binary64) : Interval :=
  let lower := if x.mantissa = 1 <<< 52 ∧ minExponent < x.exponent then 1 else 2
  ⟨4 * x.mantissa - lower, 4 * x.mantissa, 4 * x.mantissa + 2, x.mantissa % 2 = 0⟩

def unitOf (x : Binary64) (place : Int) : Nat × Nat :=
  let (a, b) := power (2 - x.exponent)
  if 0 ≤ place then (Nat.pow 10 place.toNat * a, b) else (a, Nat.pow 10 (-place).toNat * b)

def Interval.contains (i : Interval) (unit : Nat × Nat) (n : Nat) : Bool :=
  let y := n * unit.1
  if i.closed then i.low * unit.2 ≤ y ∧ y ≤ i.high * unit.2
  else i.low * unit.2 < y ∧ y < i.high * unit.2

/-- The multiple of `10 ^ place` that reads back as the double, the nearer one of two. -/
def onGrid? (tie : Tie) (x : Binary64) (place : Int) : Option Decimal :=
  let i := x.interval
  let unit := x.unitOf place
  let below := i.value * unit.2 / unit.1
  let above := below + 1
  let toBelow := i.value * unit.2 - below * unit.1
  let toAbove := above * unit.1 - i.value * unit.2
  let preferBelow := toBelow < toAbove ||
    (toBelow = toAbove && match tie with
      | .even => below % 2 = 0
      | .up => false)
  match i.contains unit below, i.contains unit above with
  | true, true => some ⟨if preferBelow then below else above, place⟩
  | true, false => some ⟨below, place⟩
  | false, true => some ⟨above, place⟩
  | false, false => none

def order (x : Binary64) : Int :=
  let (a, b) := power x.exponent
  let num := x.mantissa * a
  if b ≤ num then ((Nat.toDigits 10 (num / b)).length : Int) - 1
  else
    let n := (Nat.toDigits 10 (b / num)).length
    if b = num * Nat.pow 10 (n - 1) then 1 - (n : Int) else -(n : Int)

def shortestFrom (tie : Tie) (x : Binary64) (first : Int) : (more : Nat) → Decimal
  | 0 => ((onGrid? tie x first).getD ⟨0, 0⟩)
  | more + 1 =>
    match onGrid? tie x first with
    | some d => d.carry
    | none => shortestFrom tie x (first - 1) more

/-- The shortest decimal that reads back as a positive double, and of those the nearest. -/
def shortest (tie : Tie) (x : Binary64) : Decimal := shortestFrom tie x x.order 16

def sign (x : Binary64) : String := if x.negative then "-" else ""

def plainText (x : Binary64) : String :=
  if x.mantissa = 0 then x.sign ++ "0" else x.sign ++ (x.shortest .up).positional ""

/-- Always with a point or a power of ten, which is used outside of `10 ^ -5` to `10 ^ 15`. -/
def markedText (x : Binary64) : String :=
  if x.mantissa = 0 then x.sign ++ "0.0"
  else
    let d := x.shortest .even
    if -5 ≤ d.order ∧ d.order ≤ 15 then x.sign ++ d.positional ".0"
    else x.sign ++ d.scientific

end Binary64

end ColumnFunctions
