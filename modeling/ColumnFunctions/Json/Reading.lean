import ColumnFunctions.Json.Complaint

namespace ColumnFunctions.Json

/-- How deep brackets may be nested in what is read, though not in what is skipped. -/
def maxDepth : Nat := 127

def Complaint.tooDeep (start : Nat) : Complaint := .ofIssue ⟨.tooDeep, start + 1⟩

def located {α : Type} (offset : Nat) (r : Except Complaint α) : Except Complaint α :=
  r.mapError (·.locate offset)

/-- A part reached by a step: its objections have a place and begin their path with the step. -/
def part {α : Type} (step : Step) (after : Nat) (r : Except Complaint α) : Except Complaint α :=
  r.mapError fun c ↦ (c.locate after).inside step

def issue {α : Type} (r : Except Issue α) : Except Complaint α := r.mapError .ofIssue

mutual

/-- Any value, in which `room` more brackets may be opened. Of members with the same key the last
one counts, at the place of the first. -/
def Value.ofNode (room : Nat) : Node → Except Complaint Value
  | .null _ => .ok .null
  | .bool b _ => .ok (.bool b)
  | .number n _ => (issue n).map .number
  | .string s _ => (issue s).map .string
  | .list start elements =>
    match room with
    | 0 => .error (.tooDeep start)
    | room + 1 => (Value.ofElements room elements).map .list
  | .object start members =>
    match room with
    | 0 => .error (.tooDeep start)
    | room + 1 => (Value.ofMembers room [] members).map .object
  | .broken f => .error (.ofIssue f.wanted)

def Value.ofElements (room : Nat) : Elements → Except Complaint (List Value)
  | .close _ => .ok []
  | .broken f => .error (.ofIssue f.wanted)
  | .cons _ node _ rest => do
    let v ← Value.ofNode room node
    let vs ← Value.ofElements room rest
    return v :: vs

def Value.ofMembers (room : Nat) (members : List (String × Value)) :
    Members → Except Complaint (List (String × Value))
  | .close _ => .ok members
  | .broken f => .error (.ofIssue f.wanted)
  | .bare key _ f => do
    let _ ← issue key
    throw (.ofIssue f.wanted)
  | .cons key _ node _ rest => do
    let key ← issue key
    let v ← Value.ofNode room node
    Value.ofMembers room (put key v members) rest

end

def readOption {α : Type} (read : Node → Except Complaint α) :
    Node → Except Complaint (Option α)
  | .null _ => .ok none
  | node => (read node).map some

def readEach {α : Type} (read : Node → Except Complaint α) (i : Nat) :
    Elements → Except Complaint (List α)
  | .close _ => .ok []
  | .broken f => .error (.ofIssue f.wanted)
  | .cons _ node after rest => do
    let x ← part (.index i) after (read node)
    let xs ← readEach read (i + 1) rest
    return x :: xs

def readList {α : Type} (read : (room : Nat) → Node → Except Complaint α) (room : Nat) :
    Node → Except Complaint (List α)
  | .list start elements =>
    match room with
    | 0 => .error (.tooDeep start)
    | room + 1 => readEach (read room) 0 elements
  | node => .error (node.mismatch "a sequence")

def readEntries {α : Type} (read : Node → Except Complaint α) (entries : List (String × α)) :
    Members → Except Complaint (List (String × α))
  | .close _ => .ok entries
  | .broken f => .error (.ofIssue f.wanted)
  | .bare key _ f => do
    let _ ← issue key
    throw (.ofIssue f.wanted)
  | .cons key _ node after rest => do
    let key ← issue key
    let x ← part (.key key) after (read node)
    readEntries read (put key x entries) rest

def readMap {α : Type} (read : (room : Nat) → Node → Except Complaint α) (room : Nat) :
    Node → Except Complaint (List (String × α))
  | .object start members =>
    match room with
    | 0 => .error (.tooDeep start)
    | room + 1 => readEntries (read room) [] members
  | node => .error (node.mismatch "a map")

def readText : Node → Except Complaint String
  | .string text _ => issue text
  | node => .error (node.mismatch "a string")

def readDocument {α : Type} (read : (room : Nat) → Node → Except Complaint α) (text : String) :
    Except Complaint α :=
  let document := Document.ofText text
  match read maxDepth document.node with
  | .error c => .error c
  | .ok x =>
    match document.excess with
    | some i => .error (.ofIssue i)
    | none => .ok x

def readBeginning {α : Type} (read : (room : Nat) → Node → Except Complaint α) (text : String) :
    Except Complaint α :=
  read maxDepth (Document.ofText text).node

end ColumnFunctions.Json
