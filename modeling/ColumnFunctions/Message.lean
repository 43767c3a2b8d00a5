import ColumnFunctions.Failure
import ColumnFunctions.Function
import ColumnFunctions.Json.Shape

namespace ColumnFunctions

open Json

namespace Message

def readTexts (room : Nat) : Node → Except Complaint (List (Option String)) :=
  readList (fun _ ↦ readOption readText) room

def readCount : Node → Except Complaint Nat
  | .number (.ok (.whole n)) stop =>
    if n < 0 then .error ⟨.misfit (.wrongValue (.number (.whole n)) "usize"), some stop, []⟩
    else .ok n.toNat
  | node => .error (node.mismatch "usize")

def texts (values : List (Option String)) : Value := .list (values.map Value.ofText?)

end Message

open Message

structure Invocation where
  function : String := ""
  rows : List Row := []
  deriving DecidableEq, Repr

namespace Invocation

def shape (room : Nat) : Shape Node Invocation where
  name := "InvokeRequest"
  required := true
  fields :=
    [.filled "function" readText fun s r ↦ { r with function := s },
      .filled "rows" (readList readTexts room) fun rows r ↦ { r with rows := rows }]

def ofNode : (room : Nat) → Node → Except Complaint Invocation := Shape.read shape {}

def toValue (r : Invocation) : Value :=
  .object [("function", .string r.function), ("rows", .list (r.rows.map texts))]

end Invocation

structure Results where
  values : List (Option String) := []
  deriving DecidableEq, Repr

namespace Results

def shape (room : Nat) : Shape Node Results where
  name := "InvokeResponse"
  required := true
  fields := [.filled "values" (readTexts room) fun values r ↦ { r with values := values }]

def ofNode : (room : Nat) → Node → Except Complaint Results := Shape.read shape {}

def toValue (r : Results) : Value := .object [("values", texts r.values)]

end Results

structure ErrorReport where
  code : String := ""
  message : String := ""
  deriving DecidableEq, Repr

namespace ErrorReport

def ofFailure (f : Failure) : ErrorReport := ⟨f.code, f.message⟩

def shape (_room : Nat) : Shape Node ErrorReport where
  name := "ErrorResponse"
  required := true
  fields :=
    [.filled "code" readText fun s r ↦ { r with code := s },
      .filled "message" readText fun s r ↦ { r with message := s }]

def ofNode : (room : Nat) → Node → Except Complaint ErrorReport := Shape.read shape {}

def toValue (r : ErrorReport) : Value :=
  .object [("code", .string r.code), ("message", .string r.message)]

end ErrorReport

structure Health where
  status : String := ""
  cached : Nat := 0
  deriving DecidableEq, Repr

namespace Health

def shape (_room : Nat) : Shape Node Health where
  name := "HealthResponse"
  required := true
  fields :=
    [.filled "status" readText fun s r ↦ { r with status := s },
      .filled "secrets_cached" readCount fun n r ↦ { r with cached := n }]

def ofNode : (room : Nat) → Node → Except Complaint Health := Shape.read shape {}

def toValue (r : Health) : Value :=
  .object [("status", .string r.status), ("secrets_cached", .ofInt r.cached)]

end Health

end ColumnFunctions
