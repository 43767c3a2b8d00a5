import ColumnFunctions.Json.Reading

namespace ColumnFunctions.Json

/-- A field of a record under construction, and what a source of kind `ν` changes of the record. -/
structure Field (ν σ : Type) where
  name : String
  read : ν → Except Complaint (σ → σ)

def Field.filled {ν σ α : Type} (name : String) (read : ν → Except Complaint α)
    (set : α → σ → σ) : Field ν σ where
  name := name
  read v := (read v).map set

/-- The fields in order. A record whose fields are not `required` may lack any of them. -/
structure Shape (ν σ : Type) where
  name : String
  required : Bool
  fields : List (Field ν σ)

namespace Shape

variable {ν σ : Type}

def wanted (shape : Shape ν σ) : String := "struct " ++ shape.name

def wantedLength (shape : Shape ν σ) : String :=
  let n := shape.fields.length
  shape.wanted ++ " with " ++ toString n ++ (if n = 1 then " element" else " elements")

def field? (shape : Shape ν σ) (name : String) : Option (Field ν σ) :=
  shape.fields.find? (·.name = name)

def checkNames (shape : Shape ν σ) (seen : List String) : Except Complaint Unit :=
  if shape.required then
    match shape.fields.find? (·.name ∉ seen) with
    | some f => .error (.ofMisfit (.missingField f.name))
    | none => .ok ()
  else .ok ()

def checkLength (shape : Shape ν σ) (length : Nat) : Except Complaint Unit :=
  if shape.required ∧ length < shape.fields.length then
    .error (.ofMisfit (.wrongLength length shape.wantedLength))
  else .ok ()

/-- The members of an object, of which those with a name in `seen` have been read. -/
def readMembers (shape : Shape Node σ) (seen : List String) (record : σ) :
    Members → Except Complaint σ
  | .close stop => do
    located stop (shape.checkNames seen)
    return record
  | .broken f => .error (.ofIssue f.wanted)
  | .bare key afterKey f => do
    let key ← issue key
    if (shape.field? key).isSome ∧ key ∈ seen then
      throw ((Complaint.ofMisfit (.duplicateField key)).locate afterKey)
    throw (.ofIssue f.wanted)
  | .cons key afterKey node after rest => do
    let key ← issue key
    match shape.field? key with
    | some field =>
      if key ∈ seen then throw ((Complaint.ofMisfit (.duplicateField key)).locate afterKey)
      let change ← part (.key key) after (field.read node)
      readMembers shape (key :: seen) (change record) rest
    | none =>
      part (.key key) after (issue node.skip)
      readMembers shape seen record rest

def readElements (shape : Shape Node σ) (i : Nat) (record : σ) :
    List (Field Node σ) → Elements → Except Complaint σ
  | _, .close stop => do
    located stop (shape.checkLength i)
    return record
  | [], .broken f => .error (.ofIssue f.closing)
  | _ :: _, .broken f => .error (.ofIssue f.wanted)
  | [], .cons start _ _ _ => .error (.ofIssue ⟨.trailingCharacters, start + 1⟩)
  | field :: fields, .cons _ node after rest => do
    let change ← part (.index i) after (field.read node)
    readElements shape (i + 1) (change record) fields rest

def read (shape : (room : Nat) → Shape Node σ) (initial : σ) (room : Nat) :
    Node → Except Complaint σ
  | .object start members =>
    match room with
    | 0 => .error (.tooDeep start)
    | room + 1 => (shape room).readMembers [] initial members
  | .list start elements =>
    match room with
    | 0 => .error (.tooDeep start)
    | room + 1 => (shape room).readElements 0 initial (shape room).fields elements
  | node => .error (node.mismatch (shape room).wanted)

def ofMembers (shape : Shape Value σ) (seen : List String) (record : σ) :
    List (String × Value) → Except Complaint σ
  | [] => do
    shape.checkNames seen
    return record
  | (key, value) :: rest =>
    match shape.field? key with
    | some field => do
      let change ← field.read value
      ofMembers shape (key :: seen) (change record) rest
    | none => ofMembers shape seen record rest

def ofElements (shape : Shape Value σ) (i : Nat) (record : σ) :
    List (Field Value σ) → List Value → Except Complaint σ
  | _, [] => do
    shape.checkLength i
    return record
  | [], rest => .error (.ofMisfit (.wrongLength (i + rest.length) "fewer elements in array"))
  | field :: fields, value :: rest => do
    let change ← field.read value
    ofElements shape (i + 1) (change record) fields rest

def ofValue (shape : Shape Value σ) (initial : σ) : Value → Except Complaint σ
  | .object members => shape.ofMembers [] initial members
  | .list elements => shape.ofElements 0 initial shape.fields elements
  | value => .error (.ofMisfit (.wrongType value.found shape.wanted))

end Shape

end ColumnFunctions.Json
