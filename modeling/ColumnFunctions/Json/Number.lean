import ColumnFunctions.Binary64.Decimal

namespace ColumnFunctions.Json

/-- Whole numbers from `-2 ^ 63` to `2 ^ 64 - 1` are exact, and all others are doubles. -/
inductive Number where
  | whole (n : Int)
  | double (x : Binary64)
  deriving DecidableEq, Repr

def Number.text : Number → String
  | .whole n => toString n
  | .double x => x.markedText

structure Numeral where
  negative : Bool
  whole : List Nat
  fraction : Option (List Nat)
  exponent : Option (Bool × List Nat)
  deriving Repr

namespace Numeral

def maxSignificand : Nat := UInt64.size - 1

def maxExponent : Nat := UInt32.size / 2 - 1

/-- Appends digits while the result stays below a limit, and gives the digits not taken. -/
def gather (limit acc : Nat) : List Nat → Nat × List Nat
  | [] => (acc, [])
  | d :: ds => if limit < acc * 10 + d then (acc, d :: ds) else gather limit (acc * 10 + d) ds

/-- A numeral beyond all doubles. It is known to be so before its last `unread` digits are read. -/
structure OutOfRange where
  unread : Nat
  deriving DecidableEq, Repr

def significand (n : Numeral) : Nat × Int :=
  let (s, dropped) := gather maxSignificand 0 n.whole
  match n.fraction with
  | none => (s, dropped.length)
  | some ds =>
    let (s, rest) := gather maxSignificand s ds
    (s, (dropped.length : Int) - (ds.length - rest.length : Nat))

def double (negative : Bool) (significand : Nat) (exponent : Int) : Except OutOfRange Number :=
  match (Binary64.ofNat negative significand).scaleTen exponent with
  | some x => .ok (.double x)
  | none => .error ⟨0⟩

def isWhole (n : Numeral) : Bool :=
  n.fraction.isNone && n.exponent.isNone && (gather maxSignificand 0 n.whole).2.isEmpty

def value (n : Numeral) : Except OutOfRange Number :=
  let (s, e) := n.significand
  if n.isWhole then
    if ¬ n.negative then .ok (.whole s)
    else if 1 ≤ s ∧ s ≤ 1 <<< 63 then .ok (.whole (-s))
    else .ok (.double (.ofNat true s))
  else
    match n.exponent with
    | none => double n.negative s e
    | some (down, ds) =>
      match gather maxExponent 0 ds with
      | (x, []) => double n.negative s (if down then e - x else e + x)
      | (_, _ :: unread) =>
        if s = 0 ∨ down then .ok (.double (.zero n.negative)) else .error ⟨unread.length⟩

end Numeral

end ColumnFunctions.Json
