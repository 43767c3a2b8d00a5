import ColumnFunctions.Base64
import ColumnFunctions.Json.Reading
import ColumnFunctions.Secret.Store

namespace ColumnFunctions.Secret.Manager

open Json

/-- What comes back from a request. A `document` is an answer as it stands. -/
inductive Answer where
  | text (s : String)
  | binary
  | error (type : String)
  | nothing
  | document (body : String)
  deriving DecidableEq, Repr

/-- The name of a type of error, which may come with a namespace before it and an address after. -/
def errorName (type : String) : String :=
  let cs := type.toList.takeWhile (· ≠ ':')
  match cs.dropWhile (· ≠ '#') with
  | [] => String.ofList cs
  | _ :: name => String.ofList name

def checkNullable {α : Type} (read : Node → Except Complaint α) (node : Node) :
    Except Complaint Unit := do
  let _ ← readOption read node

def readNumber : Node → Except Complaint Number
  | .number n _ => issue n
  | node => .error (node.mismatch "a number")

def readOctets (node : Node) : Except Complaint Bytes := do
  let text ← readText node
  match Base64.decode text with
  | .ok b => return b
  | .error _ => throw (.ofMisfit (.wrongValue (.string text) "Base64"))

/-- The text of a secret after a member of an answer. The members that describe the secret have to
be of their types, and others do not matter. -/
def ofMember (secret : Option String) (key : String) (node : Node) :
    Except Complaint (Option String) :=
  match key with
  | "SecretString" => readOption readText node
  | "ARN" | "Name" | "VersionId" => (checkNullable readText node).map fun _ ↦ secret
  | "CreatedDate" => (checkNullable readNumber node).map fun _ ↦ secret
  | "SecretBinary" => (checkNullable readOctets node).map fun _ ↦ secret
  | "VersionStages" =>
    (checkNullable (readList (fun _ ↦ readText) maxDepth) node).map fun _ ↦ secret
  | _ => (issue node.skip).map fun _ ↦ secret

def ofMembers (secret : Option String) : Members → Except Complaint (Option String)
  | .close _ => .ok secret
  | .broken f | .bare _ _ f => .error (.ofIssue f.wanted)
  | .cons key _ node _ rest => do
    let key ← issue key
    let secret ← ofMember secret key node
    ofMembers secret rest

def readSecret (_room : Nat) : Node → Except Complaint (Option String)
  | .object _ members => ofMembers none members
  | node => .error (node.mismatch "an object")

def ofDocument (body : String) : Reply :=
  if body = "" then .error .noText
  else
    match readDocument readSecret body with
    | .ok (some s) => .ok s
    | .ok none => .error .noText
    | .error c => .error (.unreachable (c.message body))

def Answer.reply : Answer → Reply
  | .text s => .ok s
  | .binary => .error .noText
  | .error type =>
    if errorName type = "ResourceNotFoundException" then .error .notFound
    else .error (.unreachable (errorName type))
  | .nothing => .error (.unreachable "no answer")
  | .document body => ofDocument body

def store (answers : String → Answer) : Store := fun name _ ↦ (answers name).reply

def address (region : String) : String := "https://secretsmanager." ++ region ++ ".amazonaws.com"

structure Request where
  uri : String
  target : String
  secretId : String
  deriving DecidableEq, Repr

def request (address name : String) : Request where
  uri := String.ofList (address.toList.reverse.dropWhile (· = '/')).reverse ++ "/"
  target := "secretsmanager.GetSecretValue"
  secretId := name

end ColumnFunctions.Secret.Manager
