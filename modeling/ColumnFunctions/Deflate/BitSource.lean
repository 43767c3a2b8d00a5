import ColumnFunctions.Attempt
import ColumnFunctions.Bytes

namespace ColumnFunctions.Deflate

/-- What more octets could mend is `truncated`, and what no octets could mend `corrupt`. -/
inductive Interruption where
  | truncated
  | corrupt
  deriving DecidableEq, Repr

/-- The unread bits, least significant first: what is left of the octet begun, then the octets not
begun. -/
structure BitSource where
  held : List Bool
  rest : Bytes

namespace BitSource

def ofBytes (b : Bytes) : BitSource := ⟨[], b⟩

def size (s : BitSource) : Nat := s.held.length + 8 * s.rest.length

def next : BitSource → Except Interruption (Bool × BitSource)
  | ⟨b :: held, rest⟩ => .ok (b, ⟨held, rest⟩)
  | ⟨[], c :: rest⟩ =>
    let n := c.toNat
    .ok (n.testBit 0, ⟨[n.testBit 1, n.testBit 2, n.testBit 3, n.testBit 4, n.testBit 5,
      n.testBit 6, n.testBit 7], rest⟩)
  | ⟨[], []⟩ => .error .truncated

def number : (count : Nat) → BitSource → Except Interruption (Nat × BitSource)
  | 0, s => .ok (0, s)
  | count + 1, s => do
    let (b, s) ← s.next
    let (n, s) ← number count s
    return (b.toNat + 2 * n, s)

def align (s : BitSource) : BitSource := ⟨[], s.rest⟩

def copy (out : Array UInt8) : (count : Nat) → Bytes → Except Interruption (Array UInt8 × Bytes)
  | 0, rest => .ok (out, rest)
  | _ + 1, [] => .error .truncated
  | count + 1, b :: rest => copy (out.push b) count rest

theorem size_next {s t : BitSource} {b : Bool} (h : s.next = .ok (b, t)) :
    t.size + 1 = s.size := by
  unfold next at h
  split at h
  · cases h
    simp only [size, List.length_cons]
    omega
  · cases h
    simp only [size, List.length_cons, List.length_nil]
    omega
  · cases h

theorem size_number {count : Nat} {s t : BitSource} {n : Nat}
    (h : s.number count = .ok (n, t)) : t.size + count = s.size := by
  induction count generalizing s n with
  | zero => cases h; rfl
  | succ count ih =>
    obtain ⟨⟨_, s₁⟩, hr, h⟩ := bind_eq_ok.1 h
    obtain ⟨⟨_, s₂⟩, hq, h⟩ := bind_eq_ok.1 h
    cases h
    have h₁ := size_next hr
    have h₂ := ih hq
    omega

theorem size_align_le (s : BitSource) : s.align.size ≤ s.size := by
  simp [align, size]

theorem length_copy {out out' : Array UInt8} {count : Nat} {b rest : Bytes}
    (h : copy out count b = .ok (out', rest)) : rest.length + count = b.length := by
  induction count generalizing out b with
  | zero => cases h; rfl
  | succ count ih =>
    cases b with
    | nil => cases h
    | cons c b =>
      have := ih h
      simp only [List.length_cons]
      omega

end BitSource

end ColumnFunctions.Deflate
