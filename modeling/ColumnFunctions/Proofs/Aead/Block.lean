import ColumnFunctions.Aead.Block
import Mathlib.Algebra.Group.Nat.Defs
import Mathlib.Data.List.GetD

namespace ColumnFunctions.Block

def value (b : Bytes) (count : Nat) : Nat :=
  (List.range count).foldl (fun n i ↦ n * 256 + (b.getD i 0).toNat) 0

theorem value_succ (b : Bytes) (count : Nat) :
    value b (count + 1) = value b count * 256 + (b.getD count 0).toNat := by
  rw [value, List.range_succ, List.foldl_append]
  rfl

theorem value_lt (b : Bytes) (count : Nat) : value b count < 256 ^ count := by
  induction count with
  | zero => exact Nat.one_pos
  | succ count ih =>
    have hdigit := (b.getD count 0).toNat_lt
    rw [value_succ, Nat.pow_succ]
    omega

theorem getD_eq_of_value_eq {b c : Bytes} {count : Nat} (h : value b count = value c count) :
    ∀ i < count, b.getD i 0 = c.getD i 0 := by
  induction count with
  | zero => exact fun i hi ↦ absurd hi (Nat.not_lt_zero i)
  | succ count ih =>
    have hb := (b.getD count 0).toNat_lt
    have hc := (c.getD count 0).toNat_lt
    rw [value_succ, value_succ] at h
    intro i hi
    rcases Nat.lt_succ_iff_lt_or_eq.1 hi with hi | rfl
    · exact ih (by omega) i hi
    · exact UInt8.toNat_inj.1 (by omega)

theorem toNat_ofBytes (b : Bytes) : (ofBytes b).toNat = value b 16 :=
  Nat.mod_eq_of_lt (value_lt b 16)

theorem eq_of_ofBytes_eq {b c : Bytes} (hl : b.length = c.length) (h16 : b.length ≤ 16)
    (h : ofBytes b = ofBytes c) : b = c := by
  refine List.ext_getElem hl fun i hb hc ↦ ?_
  have hvalue : value b 16 = value c 16 := by rw [← toNat_ofBytes, ← toNat_ofBytes, h]
  have hi := getD_eq_of_value_eq hvalue i (by omega)
  rwa [List.getD_eq_getElem _ _ hb, List.getD_eq_getElem _ _ hc] at hi

theorem value_toBytes (x : Block) {count : Nat} (h : count ≤ 16) :
    value x.toBytes count = x.toNat >>> (8 * (16 - count)) := by
  induction count with
  | zero => exact (Nat.shiftRight_eq_zero _ _ x.isLt).symm
  | succ count ih =>
    have hget : x.toBytes.getD count 0 = UInt8.ofNat (x.toNat >>> (8 * (16 - 1 - count))) := by
      rw [List.getD_eq_getElem _ _ (by rw [length_toBytes]; omega)]
      simp only [toBytes, Bytes.bigEndian, List.getElem_map, List.getElem_range]
    have hshift : 8 * (16 - count) = 8 * (16 - 1 - count) + 8 := by omega
    have hplace : 16 - (count + 1) = 16 - 1 - count := by omega
    rw [value_succ, ih (by omega), hget, hshift, hplace, Nat.shiftRight_add, UInt8.toNat_ofNat',
      Nat.shiftRight_eq_div_pow _ 8]
    exact Nat.div_add_mod' _ _

theorem ofBytes_toBytes (x : Block) : ofBytes x.toBytes = x := by
  rw [← BitVec.toNat_inj, toNat_ofBytes, value_toBytes x (Nat.le_refl 16), Nat.sub_self,
    Nat.mul_zero, Nat.shiftRight_zero]

theorem toBytes_injective : Function.Injective toBytes :=
  Function.LeftInverse.injective ofBytes_toBytes

theorem ofBytes_append {b : Bytes} (h : b.length = 16) (c : Bytes) :
    ofBytes (b ++ c) = ofBytes b := by
  have hvalue : ∀ count ≤ 16, value (b ++ c) count = value b count := by
    intro count hcount
    induction count with
    | zero => rfl
    | succ count ih =>
      rw [value_succ, value_succ, ih (by omega), List.getD_append _ _ _ _ (by omega)]
  rw [← BitVec.toNat_inj, toNat_ofBytes, toNat_ofBytes, hvalue 16 (Nat.le_refl 16)]

/-- A row of octets is the last block, or one with more after it. -/
theorem split_append {b c : Bytes} (hb : b ≠ []) (h : b.length = 16 ∨ b.length ≤ 16 ∧ c = []) :
    split (b ++ c) = ofBytes b :: split c := by
  obtain ⟨x, rest, hcons⟩ := List.exists_cons_of_ne_nil (l := b ++ c) (by simp [hb])
  have hdrop : rest.drop 15 = (b ++ c).drop 16 := by rw [hcons, List.drop_succ_cons]
  rw [hcons, split, hdrop, ← hcons]
  rcases h with h | ⟨h, rfl⟩
  · rw [ofBytes_append h, List.drop_left' h]
  · rw [List.append_nil, List.drop_eq_nil_of_le h]

theorem split_blocks {a : Bytes} {k : Nat} (h : a.length = 16 * k) (b : Bytes) :
    split (a ++ b) = split a ++ split b := by
  induction k generalizing a with
  | zero =>
    obtain rfl := List.eq_nil_of_length_eq_zero h
    rw [List.nil_append, split, List.nil_append]
  | succ k ih =>
    have htake : (a.take 16).length = 16 := by rw [List.length_take]; omega
    have hdrop : (a.drop 16).length = 16 * k := by rw [List.length_drop]; omega
    have hne : a.take 16 ≠ [] := by
      rintro hnil
      rw [hnil] at htake
      cases htake
    have hsplit : ∀ c, split (a.take 16 ++ c) = ofBytes (a.take 16) :: split c :=
      fun c ↦ split_append hne (.inl htake)
    have ha := hsplit (a.drop 16)
    have hab := hsplit (a.drop 16 ++ b)
    rw [List.take_append_drop] at ha
    rw [← List.append_assoc, List.take_append_drop] at hab
    rw [ha, hab, ih hdrop, List.cons_append]

end ColumnFunctions.Block
