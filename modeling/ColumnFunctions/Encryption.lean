import ColumnFunctions.Secret.Cache

namespace ColumnFunctions

structure Surroundings where
  store : Secret.Store
  nonces : Nat → Gcm.Nonce

structure State where
  cache : Secret.Cache := {}
  drawn : Nat := 0

/-- What is done to a state. A failure leaves what was done before it. -/
abbrev Action (α : Type) := ExceptT Failure (StateM State) α

def Secret.key (s : Surroundings) (name : String) : Action Key := do
  let state ← get
  let (result, cache) := state.cache.get s.store name
  set { state with cache := cache }
  match result with
  | .ok key => return key
  | .error e => throw e.toFailure

def drawNonce (s : Surroundings) : Action Gcm.Nonce := do
  let state ← get
  set { state with drawn := state.drawn + 1 }
  return s.nonces state.drawn

def sealText (nonce : Gcm.Nonce) (key : Key) (text : String) : Except Failure String :=
  match Aead.encrypt nonce (Bytes.ofText text) key.val with
  | .ok b => .ok (Base64.encode b)
  | .error e => .error ⟨.encryptionFailure, e.message⟩

def Aead.Failure.detail : Aead.Failure → String
  | .rejected => "authentication tag verification failed"
  | e => e.message

def openText (key : Key) (sealed : String) : Except Failure String :=
  match Base64.decode sealed with
  | .error e => .error ⟨.decryptionFailure, "invalid Base64: " ++ e.message⟩
  | .ok b =>
    match Aead.decrypt b key.val with
    | .error e => .error ⟨.decryptionFailure, e.detail⟩
    | .ok text =>
      match Bytes.toText? text with
      | some t => .ok t
      | none => .error ⟨.decryptionFailure, "plaintext is not valid UTF-8"⟩

def encrypt (s : Surroundings) (secret : String) : Option String → Action (Option String)
  | none => return none
  | some text => do
    let key ← Secret.key s secret
    let nonce ← drawNonce s
    return some (← sealText nonce key text)

/-- The key is looked up before anything is asked of the text. -/
def decrypt (s : Surroundings) (secret : String) : Option String → Action (Option String)
  | none => return none
  | some sealed => do
    let key ← Secret.key s secret
    return some (← openText key sealed)

end ColumnFunctions
