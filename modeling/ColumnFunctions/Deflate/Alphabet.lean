import ColumnFunctions.Deflate.Code

namespace ColumnFunctions.Deflate

def endOfBlock : Nat := 256

/-- The values from `base` to `base + 2 ^ extra - 1`. -/
structure Range where
  base : Nat
  extra : Nat

def lengthRanges : List Range :=
  [⟨3, 0⟩, ⟨4, 0⟩, ⟨5, 0⟩, ⟨6, 0⟩, ⟨7, 0⟩, ⟨8, 0⟩, ⟨9, 0⟩, ⟨10, 0⟩, ⟨11, 1⟩, ⟨13, 1⟩, ⟨15, 1⟩,
    ⟨17, 1⟩, ⟨19, 2⟩, ⟨23, 2⟩, ⟨27, 2⟩, ⟨31, 2⟩, ⟨35, 3⟩, ⟨43, 3⟩, ⟨51, 3⟩, ⟨59, 3⟩, ⟨67, 4⟩,
    ⟨83, 4⟩, ⟨99, 4⟩, ⟨115, 4⟩, ⟨131, 5⟩, ⟨163, 5⟩, ⟨195, 5⟩, ⟨227, 5⟩, ⟨258, 0⟩]

def distanceRanges : List Range :=
  [⟨1, 0⟩, ⟨2, 0⟩, ⟨3, 0⟩, ⟨4, 0⟩, ⟨5, 1⟩, ⟨7, 1⟩, ⟨9, 2⟩, ⟨13, 2⟩, ⟨17, 3⟩, ⟨25, 3⟩, ⟨33, 4⟩,
    ⟨49, 4⟩, ⟨65, 5⟩, ⟨97, 5⟩, ⟨129, 6⟩, ⟨193, 6⟩, ⟨257, 7⟩, ⟨385, 7⟩, ⟨513, 8⟩, ⟨769, 8⟩,
    ⟨1025, 9⟩, ⟨1537, 9⟩, ⟨2049, 10⟩, ⟨3073, 10⟩, ⟨4097, 11⟩, ⟨6145, 11⟩, ⟨8193, 12⟩,
    ⟨12289, 12⟩, ⟨16385, 13⟩, ⟨24577, 13⟩]

/-- The last of the ranges that begins at or before a value, with its place in the list. -/
def rangeOf (ranges : List Range) (value : Nat) : Nat × Range :=
  (ranges.zipIdx.foldl (fun best (r, i) ↦ if r.base ≤ value then (i, r) else best) (0, ⟨0, 0⟩))

def Range.read (ranges : List Range) (index : Nat) (s : BitSource) :
    Except Interruption (Nat × BitSource) :=
  match ranges[index]? with
  | none => .error .corrupt
  | some r =>
    match s.number r.extra with
    | .error e => .error e
    | .ok (n, s) => .ok (r.base + n, s)

def fixedLengths : List Nat :=
  List.replicate 144 8 ++ List.replicate 112 9 ++ List.replicate 24 7 ++ List.replicate 8 8

def fixedDistanceLengths : List Nat := List.replicate 32 5

def fixedCode : Code := .ofLengths fixedLengths

def fixedDistanceCode : Code := .ofLengths fixedDistanceLengths

def lengthCodeOrder : List Nat :=
  [16, 17, 18, 0, 8, 7, 9, 6, 10, 5, 11, 4, 12, 3, 13, 2, 14, 1, 15]

theorem Range.size_read_le {ranges : List Range} {index : Nat} {s t : BitSource} {n : Nat}
    (h : Range.read ranges index s = .ok (n, t)) : t.size ≤ s.size := by
  simp only [Range.read] at h
  split at h
  · cases h
  · split at h
    · cases h
    · next hs =>
      cases h
      have := BitSource.size_number hs
      omega

end ColumnFunctions.Deflate
