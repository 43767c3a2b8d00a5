import ColumnFunctions.Deflate.FixedBlock
import Mathlib.Algebra.Group.Nat.Defs

namespace ColumnFunctions.Deflate

def octetBits (c : UInt8) : List Bool := numberBits 8 c.toNat

def bitsOf (b : Bytes) : List Bool := b.flatMap octetBits

@[simp] theorem length_numberBits (count n : Nat) : (numberBits count n).length = count := by
  simp [numberBits]

theorem numberBits_succ (count n : Nat) :
    numberBits (count + 1) n = n.testBit 0 :: numberBits count (n / 2) := by
  simp only [numberBits, List.range_succ_eq_map, List.map_cons, List.map_map]
  refine congrArg (n.testBit 0 :: ·) (List.map_congr_left fun i _ ↦ ?_)
  simp only [Function.comp_apply, Nat.succ_eq_add_one, Nat.testBit_add_one]

theorem testBit_zero_toNat_add (b : Bool) (n : Nat) : (b.toNat + 2 * n).testBit 0 = b := by
  cases b <;> simp [Nat.testBit_zero, Nat.add_mod]

theorem toNat_add_div_two (b : Bool) (n : Nat) : (b.toNat + 2 * n) / 2 = n := by
  have := b.toNat_lt
  omega

theorem toNat_testBit_zero_add (n : Nat) : (n.testBit 0).toNat + 2 * (n / 2) = n := by
  have h : (n.testBit 0).toNat = n % 2 := by
    rw [Nat.testBit_zero]
    rcases Nat.mod_two_eq_zero_or_one n with h | h <;> simp [h]
  omega

@[simp] theorem length_octetBits (c : UInt8) : (octetBits c).length = 8 := length_numberBits 8 _

@[simp] theorem bitsOf_nil : bitsOf [] = [] := rfl

@[simp] theorem bitsOf_cons (c : UInt8) (b : Bytes) :
    bitsOf (c :: b) = octetBits c ++ bitsOf b := rfl

@[simp] theorem bitsOf_append (a b : Bytes) : bitsOf (a ++ b) = bitsOf a ++ bitsOf b := by
  simp [bitsOf]

@[simp] theorem length_bitsOf (b : Bytes) : (bitsOf b).length = 8 * b.length := by
  induction b with
  | nil => rfl
  | cons c b ih =>
    simp only [bitsOf_cons, List.length_append, length_octetBits, ih, List.length_cons]
    omega

theorem numberBits_injective {count m n : Nat} (hm : m < 2 ^ count) (hn : n < 2 ^ count)
    (h : numberBits count m = numberBits count n) : m = n := by
  induction count generalizing m n with
  | zero => simp only [Nat.pow_zero, Nat.lt_one_iff] at hm hn; rw [hm, hn]
  | succ count ih =>
    rw [numberBits_succ, numberBits_succ, List.cons.injEq] at h
    rw [Nat.pow_succ] at hm hn
    have hd := ih (by omega) (by omega) h.2
    rw [← toNat_testBit_zero_add m, ← toNat_testBit_zero_add n, h.1, hd]

theorem octetBits_injective {c d : UInt8} (h : octetBits c = octetBits d) : c = d :=
  UInt8.toNat_inj.1 (numberBits_injective c.toNat_lt d.toNat_lt h)

theorem bitsOf_injective {a b : Bytes} (h : bitsOf a = bitsOf b) : a = b := by
  induction a generalizing b with
  | nil =>
    have := congrArg List.length h
    simp only [bitsOf_nil, List.length_nil, length_bitsOf] at this
    exact (List.eq_nil_of_length_eq_zero (by omega)).symm
  | cons c a ih =>
    cases b with
    | nil =>
      have := congrArg List.length h
      simp only [bitsOf_nil, List.length_nil, length_bitsOf, List.length_cons] at this
      omega
    | cons d b =>
      obtain ⟨hc, hb⟩ := List.append_inj h (by simp only [length_octetBits])
      rw [octetBits_injective hc, ih hb]

theorem numberBits_foldr (count : Nat) (bits : List Bool) (h : bits.length ≤ count) :
    numberBits count (bits.foldr (fun b n ↦ b.toNat + 2 * n) 0) =
      bits ++ List.replicate (count - bits.length) false := by
  induction bits generalizing count with
  | nil =>
    refine List.eq_replicate_iff.2 ⟨length_numberBits _ _, fun b hb ↦ ?_⟩
    obtain ⟨i, _, rfl⟩ := List.mem_map.1 hb
    exact Nat.zero_testBit i
  | cons b bits ih =>
    cases count with
    | zero => simp at h
    | succ count =>
      simp only [List.length_cons, Nat.add_le_add_iff_right] at h
      rw [List.foldr_cons, numberBits_succ, testBit_zero_toNat_add, toNat_add_div_two, ih count h]
      simp

theorem foldr_bits_lt (bits : List Bool) :
    bits.foldr (fun b n ↦ b.toNat + 2 * n) 0 < 2 ^ bits.length := by
  induction bits with
  | nil => simp
  | cons b bits ih =>
    have := b.toNat_lt
    rw [List.foldr_cons, List.length_cons, Nat.pow_succ]
    omega

theorem octetBits_octetOfBits {bits : List Bool} (h : bits.length ≤ 8) :
    octetBits (octetOfBits bits) = bits ++ List.replicate (8 - bits.length) false := by
  have hlt := foldr_bits_lt bits
  have hle := Nat.pow_le_pow_right (show 0 < 2 by decide) h
  rw [octetBits, octetOfBits, UInt8.toNat_ofNat_of_lt' (by simp only [UInt8.size]; omega),
    numberBits_foldr 8 bits h]

/-- Packed bits are followed by the zeros that fill the last octet. -/
theorem bitsOf_pack (bits : List Bool) :
    bitsOf (pack bits) = bits ++ List.replicate ((8 - bits.length % 8) % 8) false := by
  fun_induction pack bits with
  | case1 => rfl
  | case2 b bits ih =>
    have hlen : (b :: bits.take 7).length ≤ 8 := by
      simp only [List.length_cons, List.length_take]
      omega
    rw [bitsOf_cons, octetBits_octetOfBits hlen, ih]
    by_cases h : 7 ≤ bits.length
    · have hpad : (8 - (bits.length - 7) % 8) % 8 = (8 - (bits.length + 1) % 8) % 8 := by omega
      simp only [List.length_cons, List.length_take, Nat.min_eq_left h, Nat.sub_self,
        List.replicate_zero, List.append_nil, List.length_drop, hpad, List.cons_append,
        ← List.append_assoc, List.take_append_drop]
    · have hpad : 8 - (bits.length + 1) = (8 - (bits.length + 1) % 8) % 8 := by omega
      rw [List.drop_eq_nil_of_le (by omega), List.take_of_length_le (by omega)]
      simp [hpad]

end ColumnFunctions.Deflate
