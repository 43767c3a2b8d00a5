import ColumnFunctions.Aead
import ColumnFunctions.Base64
import ColumnFunctions.Failure
import ColumnFunctions.Secret.Store

namespace ColumnFunctions

abbrev Key := { b : Bytes // b.length = Aead.keyLength }

namespace Key

def ofBytes? (b : Bytes) : Option Key :=
  if h : b.length = Aead.keyLength then some ⟨b, h⟩ else none

def shown (_ : Key) : String := "KeyBytes([REDACTED])"

end Key

namespace Secret

inductive Failure where
  | notFetched (name : String) (cause : StoreFailure)
  | notBase64 (name : String)
  | wrongLength (name : String) (length : Nat)
  deriving DecidableEq, Repr

namespace Failure

def message : Failure → String
  | .notFetched name cause => "secret " ++ name ++ " could not be fetched: " ++ cause.message name
  | .notBase64 name => "secret " ++ name ++ " is not valid Base64"
  | .wrongLength name n =>
    "secret " ++ name ++ " decodes to " ++ toString n ++ " bytes; expected " ++
      toString Aead.keyLength

def toFailure (e : Failure) : ColumnFunctions.Failure := ⟨.secretUnavailable, e.message⟩

end Failure

def keyOfReply (name : String) : Reply → Except Failure Key
  | .error cause => .error (.notFetched name cause)
  | .ok text =>
    match Base64.decode text with
    | .error _ => .error (.notBase64 name)
    | .ok b =>
      match Key.ofBytes? b with
      | some key => .ok key
      | none => .error (.wrongLength name b.length)

end Secret

end ColumnFunctions
