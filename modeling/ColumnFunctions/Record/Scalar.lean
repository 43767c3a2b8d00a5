import ColumnFunctions.Json.Reading
import ColumnFunctions.Text.Blank
import ColumnFunctions.Text.Numeral

namespace ColumnFunctions

open Json

inductive Scalar where
  | integer (n : Int)
  | double (x : Binary64)
  | truth (b : Bool)
  | text (s : String)
  deriving DecidableEq, Repr

namespace Scalar

/-- A whole number beyond `2 ^ 63 - 1` is taken for a double. -/
def ofValue? : Value → Option Scalar
  | .number (.whole n) =>
    if n ≤ Int64.maxValue.toInt then some (.integer n) else some (.double (.ofNat false n.toNat))
  | .number (.double x) => some (.double x)
  | .bool b => some (.truth b)
  | .string s => some (.text s)
  | _ => none

def toText : Scalar → String
  | .integer n => toString n
  | .double x => x.plainText
  | .truth b => if b then "true" else "false"
  | .text s => s

def isLong (n : Int) : Bool := Int64.minValue.toInt ≤ n ∧ n ≤ Int64.maxValue.toInt

/-- The integer of a scalar, which a blank text and the whole part of a double are as well. -/
def toInteger : Scalar → Except Misfit Int
  | .integer n => .ok n
  | .double x =>
    if x.truncated < 1 <<< 63 then .ok (if x.negative then -(x.truncated : Int) else x.truncated)
    else .error (.notWhole x)
  | .truth b => .error (.invalidIntegerTruth b)
  | .text s =>
    let cs := Text.trimChars s.toList
    if cs = [] then .ok 0
    else
      match Text.intOfSigned? cs with
      | some n => if isLong n then .ok n else .error (.invalidInteger s)
      | none => .error (.invalidInteger s)

def toInt64 (s : Scalar) : Except Misfit Int64 := do
  let n ← s.toInteger
  if isLong n then return Int64.ofInt n else throw (.integerOutOfRange n)

def toInt32 (s : Scalar) : Except Misfit Int32 := do
  let n ← s.toInteger
  if Int32.minValue.toInt ≤ n ∧ n ≤ Int32.maxValue.toInt then return Int32.ofInt n
  else throw (.integerOutOfRange n)

def ofNode? (room : Nat) (node : Node) : Except Complaint (Option Scalar) :=
  readOption (fun node ↦ do
    match ofValue? (← Value.ofNode room node) with
    | some s => return s
    | none => throw (.ofMisfit .noScalar)) node

def ofValueOrNull : Value → Except Complaint (Option Scalar)
  | .null => .ok none
  | v =>
    match ofValue? v with
    | some s => .ok (some s)
    | none => .error (.ofMisfit .noScalar)

end Scalar

end ColumnFunctions
