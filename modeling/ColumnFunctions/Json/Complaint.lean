import ColumnFunctions.Json.Cursor
import ColumnFunctions.Json.Node
import ColumnFunctions.Json.Value
import ColumnFunctions.Text.Quoted

namespace ColumnFunctions.Json

inductive Found where
  | null
  | bool (b : Bool)
  | number (n : Number)
  | string (s : String)
  | list
  | object
  deriving Repr

def Found.message : Found → String
  | .null => "null"
  | .bool b => "boolean `" ++ (if b then "true" else "false") ++ "`"
  | .number (.whole n) => "integer `" ++ toString n ++ "`"
  | .number (.double x) => "floating point `" ++ x.markedText ++ "`"
  | .string s => "string " ++ Text.quoted s
  | .list => "sequence"
  | .object => "map"

def Value.found : Value → Found
  | .null => .null
  | .bool b => .bool b
  | .number n => .number n
  | .string s => .string s
  | .list _ => .list
  | .object _ => .object

inductive Misfit where
  | wrongType (found : Found) (wanted : String)
  | wrongValue (found : Found) (wanted : String)
  | wrongLength (length : Nat) (wanted : String)
  | missingField (name : String)
  | duplicateField (name : String)
  | noScalar
  | invalidInteger (text : String)
  | invalidIntegerTruth (b : Bool)
  | notWhole (x : Binary64)
  | integerOutOfRange (n : Int)
  | emptyAttribute
  deriving Repr

def Misfit.message : Misfit → String
  | .wrongType found wanted => "invalid type: " ++ found.message ++ ", expected " ++ wanted
  | .wrongValue found wanted => "invalid value: " ++ found.message ++ ", expected " ++ wanted
  | .wrongLength n wanted => "invalid length " ++ toString n ++ ", expected " ++ wanted
  | .missingField name => "missing field `" ++ name ++ "`"
  | .duplicateField name => "duplicate field `" ++ name ++ "`"
  | .noScalar => "data did not match any variant of untagged enum Scalar"
  | .invalidInteger s => "invalid integer " ++ Text.quoted s
  | .invalidIntegerTruth b => "invalid integer " ++ (if b then "true" else "false")
  | .notWhole x => "number " ++ x.plainText ++ " is not a valid integer"
  | .integerOutOfRange n => "integer " ++ toString n ++ " out of range"
  | .emptyAttribute => "user attribute has neither `value` nor `set_timestamp`"

inductive Reason where
  | syntactic (cause : Cause)
  | misfit (m : Misfit)
  deriving Repr

def Reason.message : Reason → String
  | .syntactic c => c.message
  | .misfit m => m.message

inductive Step where
  | index (i : Nat)
  | key (name : String)
  deriving Repr

/-- An objection gets the place of the innermost value that has one, and the path to it. -/
structure Complaint where
  reason : Reason
  offset : Option Nat
  path : List Step
  deriving Repr

namespace Complaint

def ofIssue (i : Issue) : Complaint := ⟨.syntactic i.cause, some i.offset, []⟩

def ofMisfit (m : Misfit) : Complaint := ⟨.misfit m, none, []⟩

def locate (c : Complaint) (offset : Nat) : Complaint :=
  match c.offset with
  | none => { c with offset := some offset }
  | some _ => c

def inside (c : Complaint) (s : Step) : Complaint := { c with path := s :: c.path }

def message (c : Complaint) (text : String) : String :=
  c.reason.message ++ match c.offset with
    | some n => (Position.ofOffset text n).message
    | none => ""

def pathText : List Step → String
  | [] => ""
  | .index i :: rest => "[" ++ toString i ++ "]" ++ pathText rest
  | .key name :: rest => "." ++ name ++ pathText rest

def messageWithPath (c : Complaint) (text : String) : String :=
  match c.path with
  | [] => c.message text
  | .key name :: rest => name ++ pathText rest ++ ": " ++ c.message text
  | path => pathText path ++ ": " ++ c.message text

end Complaint

namespace Node

def mismatch (wanted : String) : Node → Complaint
  | .null stop => found .null stop
  | .bool b stop => found (.bool b) stop
  | .number (.ok n) stop => found (.number n) stop
  | .number (.error i) _ => .ofIssue i
  | .string (.ok s) stop => found (.string s) stop
  | .string (.error i) _ => .ofIssue i
  | .list start _ => found .list start
  | .object start _ => found .object start
  | .broken f => .ofIssue f.wanted
where
  found (f : Found) (offset : Nat) : Complaint :=
    ⟨.misfit (.wrongType f wanted), some offset, []⟩

end Node

mutual

/-- What there is to object to in a node that nobody wants. -/
def Node.skip : Node → Except Issue Unit
  | .null _ | .bool _ _ | .number _ _ | .string _ _ => .ok ()
  | .list _ elements => elements.skip
  | .object _ members => members.skip
  | .broken f => .error f.skipped

def Elements.skip : Elements → Except Issue Unit
  | .close _ => .ok ()
  | .broken f => .error f.skipped
  | .cons _ node _ rest =>
    match node.skip with
    | .ok () => rest.skip
    | .error i => .error i

def Members.skip : Members → Except Issue Unit
  | .close _ => .ok ()
  | .broken f => .error f.skipped
  | .bare _ _ f => .error f.skipped
  | .cons _ _ node _ rest =>
    match node.skip with
    | .ok () => rest.skip
    | .error i => .error i

end

end ColumnFunctions.Json
