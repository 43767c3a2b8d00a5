import ColumnFunctions.Settings.Variable
import ColumnFunctions.Text.Blank
import ColumnFunctions.Text.Quoted

namespace ColumnFunctions

structure Settings where
  listenPort : Nat := 8080
  logLevel : String := "info"
  traceEndpoint : Option String := none
  secretsEndpoint : Option String := none
  maxBatchRows : Nat := 10000
  deriving DecidableEq, Repr

namespace Settings

inductive Found where
  | text (s : String)
  | whole (n : Nat)
  | table
  | list
  deriving DecidableEq, Repr

def Found.origin : Found → String
  | .text _ => " in the environment"
  | _ => ""

def Found.message : Found → String
  | .text s => "string " ++ Text.quoted s
  | .whole n => "64-bit unsigned integer `" ++ toString n ++ "`"
  | .table => "map"
  | .list => "sequence"

inductive Failure where
  | wrongType (key : String) (found : Found) (wanted : String)
  | zero (key : String)
  | blank (key : String)
  deriving DecidableEq, Repr

def Failure.message : Failure → String
  | .wrongType key found wanted =>
    "failed to deserialise configuration: invalid type: " ++ found.message ++ ", expected " ++
      wanted ++ " for key `" ++ key ++ "`" ++ found.origin
  | .zero key => key.toUpper ++ " must be > 0"
  | .blank key => key.toUpper ++ " must not be empty"

/-- The number that a text stands for: digits, or a word for yes or no. -/
def numberOfText? (s : String) : Option Nat :=
  match s.toLower with
  | "true" | "on" | "yes" => some 1
  | "false" | "off" | "no" => some 0
  | _ => (Text.natOfSigned? s.toList).filter (· < UInt64.size)

def readNumber (key : String) : Setting → Except Failure Nat
  | .text s =>
    match numberOfText? s with
    | some n => .ok n
    | none => .error (.wrongType key (.text s) "an integer")
  | .table => .error (.wrongType key .table "an integer")
  | .list => .error (.wrongType key .list "an integer")

def readPort (key : String) (s : Setting) : Except Failure Nat := do
  let n ← readNumber key s
  if n < UInt16.size then return n
  else throw (.wrongType key (.whole n) "an unsigned 16 bit integer")

def readText (key : String) : Setting → Except Failure String
  | .text s => .ok s
  | .table => .error (.wrongType key .table "a string")
  | .list => .error (.wrongType key .list "a string")

/-- What the variables give to a key. The last one that gives anything counts. -/
def find? (settings : List (String × Setting)) (key : String) : Option Setting :=
  settings.reverse.lookup key

def readKey {α : Type} (settings : List (String × Setting)) (key : String)
    (read : String → Setting → Except Failure α) : Except Failure (Option α) :=
  match find? settings key with
  | none => .ok none
  | some s => (read key s).map some

def ofSettings (settings : List (String × Setting)) : Except Failure Settings := do
  let port ← readKey settings "listen_port" readPort
  let level ← readKey settings "log_level" readText
  let trace ← readKey settings "otel_exporter_otlp_endpoint" readText
  let secrets ← readKey settings "secrets_manager_endpoint" readText
  let rows ← readKey settings "max_batch_rows" readNumber
  let defaults : Settings := {}
  return {
    listenPort := port.getD defaults.listenPort
    logLevel := level.getD defaults.logLevel
    traceEndpoint := trace.bind Text.nonBlank?
    secretsEndpoint := secrets.bind Text.nonBlank?
    maxBatchRows := rows.getD defaults.maxBatchRows }

def check (s : Settings) : Except Failure Unit :=
  if s.listenPort = 0 then .error (.zero "listen_port")
  else if s.maxBatchRows = 0 then .error (.zero "max_batch_rows")
  else if (Text.nonBlank? s.logLevel).isNone then .error (.blank "log_level")
  else .ok ()

def ofEnvironment (environment : List (String × String)) : Except Failure Settings := do
  let s ← ofSettings (environment.map fun (name, value) ↦ Variable.setting name value)
  check s
  return s

end Settings

end ColumnFunctions
