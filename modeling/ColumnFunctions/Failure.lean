namespace ColumnFunctions

inductive Failure.Kind where
  | secretUnavailable
  | malformedCompressedData
  | encryptionFailure
  | decryptionFailure
  | unknownFunction
  | invalidArguments
  | internal
  deriving DecidableEq, Repr

structure Failure where
  kind : Failure.Kind
  detail : String
  deriving DecidableEq, Repr

namespace Failure

def Kind.status : Kind → Nat
  | .secretUnavailable => 503
  | .encryptionFailure | .internal => 500
  | .malformedCompressedData | .decryptionFailure | .unknownFunction | .invalidArguments => 400

def Kind.code : Kind → String
  | .secretUnavailable => "secret_unavailable"
  | .malformedCompressedData => "malformed_compressed_data"
  | .encryptionFailure => "encryption_failure"
  | .decryptionFailure => "decryption_failure"
  | .unknownFunction => "unknown_function"
  | .invalidArguments => "invalid_arguments"
  | .internal => "internal_error"

def Kind.phrase : Kind → String
  | .secretUnavailable => "secret unavailable"
  | .malformedCompressedData => "malformed compressed data"
  | .encryptionFailure => "encryption failure"
  | .decryptionFailure => "decryption failure"
  | .unknownFunction => "unknown function"
  | .invalidArguments => "invalid arguments"
  | .internal => "internal error"

def status (f : Failure) : Nat := f.kind.status

def code (f : Failure) : String := f.kind.code

def message (f : Failure) : String := f.kind.phrase ++ ": " ++ f.detail

def malformed (detail : String) : Failure := ⟨.malformedCompressedData, detail⟩

end Failure

end ColumnFunctions
