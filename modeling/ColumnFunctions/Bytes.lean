namespace ColumnFunctions

abbrev Bytes := List UInt8

namespace Bytes

def ofText (s : String) : Bytes := s.toUTF8.data.toList

def toText? (b : Bytes) : Option String := String.fromUTF8? ⟨b.toArray⟩

@[simp] theorem toText?_ofText (s : String) : toText? (ofText s) = some s := by
  have h : (⟨s.toUTF8.data⟩ : ByteArray).IsValidUTF8 := s.isValidUTF8
  simp only [toText?, ofText, Array.toArray_toList, String.fromUTF8?]
  exact dif_pos h

theorem ofText_of_toText? {b : Bytes} {s : String} (h : toText? b = some s) : ofText s = b := by
  simp only [toText?, String.fromUTF8?] at h
  split at h
  · cases h; rfl
  · cases h

theorem toText?_eq_some {b : Bytes} {s : String} : toText? b = some s ↔ ofText s = b :=
  ⟨ofText_of_toText?, fun h ↦ h ▸ toText?_ofText s⟩

def bigEndian (count n : Nat) : Bytes :=
  (List.range count).map fun i ↦ UInt8.ofNat (n >>> (8 * (count - 1 - i)))

def littleEndian (count n : Nat) : Bytes :=
  (List.range count).map fun i ↦ UInt8.ofNat (n >>> (8 * i))

@[simp] theorem length_bigEndian (count n : Nat) : (bigEndian count n).length = count := by
  simp [bigEndian]

@[simp] theorem length_littleEndian (count n : Nat) : (littleEndian count n).length = count := by
  simp [littleEndian]

end Bytes

end ColumnFunctions
