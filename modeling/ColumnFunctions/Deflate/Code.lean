import ColumnFunctions.Deflate.BitSource

namespace ColumnFunctions.Deflate

/-- A binary tree with symbols at its leaves. A word that leads nowhere is `missing`. -/
inductive Code where
  | missing
  | leaf (symbol : Nat)
  | fork (zero one : Code)
  deriving Repr

namespace Code

def branch : Code → Bool → Code
  | .fork _ one, true => one
  | .fork zero _, false => zero
  | _, _ => .missing

def insert (symbol : Nat) : Code → List Bool → Code
  | _, [] => .leaf symbol
  | c, false :: word => .fork ((c.branch false).insert symbol word) (c.branch true)
  | c, true :: word => .fork (c.branch false) ((c.branch true).insert symbol word)

def walk : Code → BitSource → Except Interruption (Nat × BitSource)
  | .missing, _ => .error .corrupt
  | .leaf symbol, s => .ok (symbol, s)
  | .fork zero one, s =>
    match s.next with
    | .error e => .error e
    | .ok (true, s) => one.walk s
    | .ok (false, s) => zero.walk s

def read (c : Code) (s : BitSource) : Except Interruption (Nat × BitSource) :=
  match s.next with
  | .error e => .error e
  | .ok (b, s) => (c.branch b).walk s

def maxLength : Nat := 15

def word (length value : Nat) : List Bool :=
  (List.range length).map fun i ↦ value.testBit (length - 1 - i)

def symbolsOf (lengths : List Nat) (length : Nat) : List Nat :=
  lengths.zipIdx.filterMap fun (l, symbol) ↦ if l = length then some symbol else none

/-- The words of one length after those of all shorter lengths; `first` is the next free word. -/
def addLength (lengths : List Nat) (state : Nat × Code) (length : Nat) : Nat × Code :=
  (symbolsOf lengths length).foldl
    (fun (value, c) symbol ↦ (value + 1, c.insert symbol (word length value)))
    (2 * state.1, state.2)

def ofLengths (lengths : List Nat) : Code :=
  ((List.range' 1 maxLength).foldl (addLength lengths) (0, .missing)).2

def weight (lengths : List Nat) : Nat :=
  (lengths.map fun l ↦ if l = 0 then 0 else 1 <<< (maxLength - l)).foldr (· + ·) 0

def isComplete (lengths : List Nat) : Bool := weight lengths = 1 <<< maxLength

/-- No symbol at all, or one that has a word of one bit. -/
def isDegenerate (lengths : List Nat) : Bool :=
  let used := lengths.filter (· ≠ 0)
  used = [] ∨ used = [1]

theorem size_walk_le {c : Code} {s t : BitSource} {n : Nat} (h : c.walk s = .ok (n, t)) :
    t.size ≤ s.size := by
  induction c generalizing s with
  | missing => cases h
  | leaf symbol => cases h; exact Nat.le_refl _
  | fork zero one hz ho =>
    simp only [walk] at h
    split at h
    · cases h
    · next hs =>
      have h₁ := ho h
      have h₂ := BitSource.size_next hs
      omega
    · next hs =>
      have h₁ := hz h
      have h₂ := BitSource.size_next hs
      omega

theorem size_read_lt {c : Code} {s t : BitSource} {n : Nat} (h : c.read s = .ok (n, t)) :
    t.size < s.size := by
  simp only [read] at h
  split at h
  · cases h
  · next hs =>
    have h₁ := size_walk_le h
    have h₂ := BitSource.size_next hs
    omega

end Code

end ColumnFunctions.Deflate
