import ColumnFunctions.Json.Shape
import ColumnFunctions.Record.Scalar

namespace ColumnFunctions

open Json

structure UserAttribute where
  value : Option String
  setTimestamp : Int64
  deriving DecidableEq

/-- Attributes in order; no name occurs twice in what is read. -/
structure UserRecord where
  attributes : List (String × UserAttribute)

namespace UserAttribute

structure Draft where
  value : Option (Option Scalar) := none
  setTimestamp : Option (Option Scalar) := none

variable {ν : Type}

def shape (source : ν → Except Complaint (Option Scalar)) : Shape ν Draft where
  name := "RawUserAttribute"
  required := false
  fields :=
    [{ name := "value", read := fun v ↦ do
        let s ← source v
        return fun d ↦ { d with value := some s } },
      { name := "set_timestamp", read := fun v ↦ do
        let s ← source v
        return fun d ↦ { d with setTimestamp := some s } }]

/-- Without a value and a time there is no attribute. A time that is null or not there is zero. -/
def ofDraft (d : Draft) : Except Misfit UserAttribute :=
  if d.value.isNone ∧ d.setTimestamp.isNone then .error .emptyAttribute
  else do
    let time ← match d.setTimestamp.join with
      | some s => s.toInt64
      | none => .ok 0
    return ⟨d.value.join.map Scalar.toText, time⟩

def ofNode (room : Nat) (node : Node) : Except Complaint UserAttribute := do
  let d ← Shape.read (fun room ↦ shape (Scalar.ofNode? room)) {} room node
  (ofDraft d).mapError .ofMisfit

def ofValue (v : Value) : Except Complaint UserAttribute := do
  let d ← (shape Scalar.ofValueOrNull).ofValue {} v
  (ofDraft d).mapError .ofMisfit

def toValue (a : UserAttribute) : Value :=
  .object [("value", .ofText? a.value), ("set_timestamp", .ofInt a.setTimestamp.toInt)]

end UserAttribute

namespace UserRecord

def ofNode (room : Nat) (node : Node) : Except Complaint UserRecord :=
  (readMap UserAttribute.ofNode room node).map .mk

def ofMembers : List (String × Value) → Except Complaint (List (String × UserAttribute))
  | [] => .ok []
  | (key, v) :: rest => do
    let a ← UserAttribute.ofValue v
    let more ← ofMembers rest
    return (key, a) :: more

def ofValue : Value → Except Complaint UserRecord
  | .object members => (ofMembers members).map .mk
  | v => .error (.ofMisfit (.wrongType v.found "a map"))

def toValue (r : UserRecord) : Value :=
  .object (r.attributes.map fun (name, a) ↦ (name, a.toValue))

end UserRecord

end ColumnFunctions
