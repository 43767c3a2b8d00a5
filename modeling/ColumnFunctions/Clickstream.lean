import ColumnFunctions.Base64
import ColumnFunctions.Failure
import ColumnFunctions.Gzip
import ColumnFunctions.Record.Attribute
import ColumnFunctions.Record.Event
import ColumnFunctions.Record.User

namespace ColumnFunctions.Clickstream

open Json

inductive Shape where
  | event
  | attribute
  | user
  deriving DecidableEq, Repr

def isLineBreak (c : Char) : Bool := c = '\r' ∨ c = '\n'

def joinLines (s : String) : String := String.ofList (s.toList.filter fun c ↦ ¬ isLineBreak c)

def inflateBytes (b : Bytes) : Except Gzip.Failure String :=
  match Gzip.decompress b with
  | .error e => .error e
  | .ok text =>
    match Bytes.toText? text with
    | some s => .ok (joinLines s)
    | none => .error .notText

def inflateText (input : String) : Except Failure String :=
  match Base64.decode input with
  | .error e => .error (.malformed ("invalid Base64: " ++ e.message))
  | .ok b => (inflateBytes b).mapError fun e ↦ .malformed ("invalid gzip stream: " ++ e.message)

abbrev Payload (α : Type) := Option (List (Option α))

def readPayload {α : Type} (read : (room : Nat) → Node → Except Complaint α) (text : String) :
    Except Complaint (Payload α) :=
  readDocument (fun room ↦ readOption (readList (fun room ↦ readOption (read room)) room)) text

def nullable {α : Type} (toValue : α → Value) : Option α → Value
  | some x => toValue x
  | none => .null

def writePayload {α : Type} (toValue : α → Value) (payload : Payload α) : String :=
  (nullable (fun records ↦ .list (records.map (nullable toValue))) payload).text

def reencodeAs {α : Type} (read : (room : Nat) → Node → Except Complaint α) (toValue : α → Value)
    (text : String) : Except Complaint String :=
  (readPayload read text).map (writePayload toValue)

def reencode : Shape → String → Except Complaint String
  | .event => reencodeAs EventRecord.ofNode EventRecord.toValue
  | .attribute => reencodeAs AttributeRecord.ofNode AttributeRecord.toValue
  | .user => reencodeAs UserRecord.ofNode UserRecord.toValue

/-- A payload is the Base64 form of a gzip stream of a list of records. -/
def decode (shape : Shape) : Option String → Except Failure (Option String)
  | none => .ok none
  | some input => do
    let text ← inflateText input
    match reencode shape text with
    | .ok json => return some json
    | .error c =>
      throw (.malformed ("payload does not match record shape: " ++ c.message text))

end ColumnFunctions.Clickstream
