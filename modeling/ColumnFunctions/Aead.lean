import ColumnFunctions.Aead.Aes
import ColumnFunctions.Aead.Gcm

namespace ColumnFunctions.Aead

def keyLength : Nat := 32

def nonceLength : Nat := 12

def overhead : Nat := nonceLength + Gcm.tagLength

inductive Failure where
  | invalidKeyLength
  | tooShort (length : Nat)
  | rejected
  deriving DecidableEq, Repr

def Failure.message : Failure → String
  | .invalidKeyLength => "invalid key length: expected " ++ toString keyLength ++ " bytes"
  | .tooShort n =>
    "sealed data is " ++ toString n ++ " bytes; at least " ++ toString overhead ++ " required"
  | .rejected => "aead operation failed"

/-- A sealed buffer is the nonce, the encrypted octets and the tag. -/
def encrypt (nonce : Gcm.Nonce) (text key : Bytes) : Except Failure Bytes :=
  if key.length ≠ keyLength then .error .invalidKeyLength
  else if Gcm.maxText < text.length then .error .rejected
  else .ok (nonce.val ++ Gcm.encrypt (Aes.encrypt key) nonce text)

def decrypt (sealed key : Bytes) : Except Failure Bytes :=
  if h : sealed.length < overhead then .error (.tooShort sealed.length)
  else if key.length ≠ keyLength then .error .invalidKeyLength
  else if Gcm.maxText + overhead < sealed.length then .error .rejected
  else
    let nonce : Gcm.Nonce := ⟨sealed.take nonceLength, by
      simp only [overhead, nonceLength, Gcm.tagLength] at h
      simp only [nonceLength, List.length_take]
      omega⟩
    match Gcm.decrypt? (Aes.encrypt key) nonce (sealed.drop nonceLength) with
    | some text => .ok text
    | none => .error .rejected

end ColumnFunctions.Aead
