import ColumnFunctions.Aead.Gcm
import Mathlib.FieldTheory.Finite.Extension
import Mathlib.RingTheory.AdjoinRoot

namespace ColumnFunctions.Gcm

open Polynomial

/-- The field of two elements, as a type of its own so that nothing computes with them. -/
def Bit : Type := ZMod 2

noncomputable instance : Field Bit := inferInstanceAs (Field (ZMod 2))

instance : Finite Bit := inferInstanceAs (Finite (ZMod 2))

theorem card_bit : Nat.card Bit = 2 := Nat.card_zmod 2

theorem two_eq_zero : (2 : Bit) = 0 := CharP.cast_eq_zero (ZMod 2) 2

section Evaluation

variable {R : Type} [CommRing R]

/-- The value at `t` of the polynomial whose coefficients are the bits of a block. -/
def eval (t : R) (x : Block) : R := ∑ i ∈ Finset.range 128, if x.getMsbD i then t ^ i else 0

theorem eval_zero (t : R) : eval t 0 = 0 :=
  Finset.sum_eq_zero fun i _ ↦ by simp

/-- A bit is moved to the next power, and the last one out of the block. -/
theorem eval_shift (t : R) (v : Block) :
    t * eval t v = eval t (v >>> 1) + if v.getLsbD 0 then t ^ 128 else 0 := by
  have hlast : v.getMsbD 127 = v.getLsbD 0 := by rw [BitVec.getMsbD_eq_getLsbD]; rfl
  rw [eval, eval, Finset.sum_range_succ, Finset.sum_range_succ' _ 127, mul_add, Finset.mul_sum,
    hlast]
  congr 1
  · have hfirst : (v >>> 1).getMsbD 0 = false := by simp
    rw [hfirst, if_neg Bool.false_ne_true, add_zero]
    refine Finset.sum_congr rfl fun i hi ↦ ?_
    have hlt : i + 1 < 128 := Nat.succ_lt_succ (Finset.mem_range.1 hi)
    have hbit : (v >>> 1).getMsbD (i + 1) = v.getMsbD i := by
      simp [BitVec.getMsbD_ushiftRight, hlt]
    rw [hbit, mul_ite, mul_zero, ← pow_succ']
  · rw [mul_ite, mul_zero, ← pow_succ']

def one : Block := 0x80000000000000000000000000000000

def indeterminate : Block := 0x40000000000000000000000000000000

theorem eval_one (t : R) : eval t one = 1 := by
  have hbits : ∀ i < 128, one.getMsbD i = decide (i = 0) := by decide
  rw [eval, Finset.sum_eq_single 0]
  · rw [hbits 0 (by decide), decide_eq_true rfl, if_pos rfl, pow_zero]
  · intro i hi hne
    rw [hbits i (Finset.mem_range.1 hi), decide_eq_false hne, if_neg Bool.false_ne_true]
  · exact fun h ↦ absurd (Finset.mem_range.2 (by decide)) h

theorem eval_indeterminate (t : R) : eval t indeterminate = t := by
  have hshift := eval_shift t one
  rw [eval_one, mul_one, if_neg (by decide), add_zero] at hshift
  exact hshift.symm

variable [Algebra Bit R]

theorem add_self_eq_zero (a : R) : a + a = 0 := by
  have htwo : (2 : R) = 0 := by
    rw [← map_ofNat (algebraMap Bit R) 2, two_eq_zero, map_zero]
  rw [← two_mul, htwo, zero_mul]

theorem eval_xor (t : R) (x y : Block) : eval t (x ^^^ y) = eval t x + eval t y := by
  rw [eval, eval, eval, ← Finset.sum_add_distrib]
  refine Finset.sum_congr rfl fun i _ ↦ ?_
  rw [BitVec.getMsbD_xor]
  cases x.getMsbD i <;> cases y.getMsbD i <;> simp [add_self_eq_zero]

section Multiplication

variable {t : R} (ht : t ^ 128 = eval t reduction)
include ht

theorem eval_timesX (v : Block) : eval t (timesX v) = t * eval t v := by
  rw [eval_shift, timesX]
  split
  · rw [eval_xor, ht]
  · rw [add_zero]

theorem eval_mulFrom (x : Block) (count : ℕ) (v sum : Block) :
    eval t (mulFrom x count v sum) = eval t sum +
      eval t v * ∑ i ∈ Finset.range count, if x.getLsbD (count - 1 - i) then t ^ i else 0 := by
  induction count generalizing v sum with
  | zero => rw [mulFrom, Finset.range_zero, Finset.sum_empty, mul_zero, add_zero]
  | succ count ih =>
    have hsum : eval t (if x.getLsbD count then sum ^^^ v else sum) =
        eval t sum + eval t v * if x.getLsbD count then 1 else 0 := by
      split
      · rw [eval_xor, mul_one]
      · rw [mul_zero, add_zero]
    have hrest : ∀ i, (if x.getLsbD (count + 1 - 1 - (i + 1)) then t ^ (i + 1) else 0) =
        t * if x.getLsbD (count - 1 - i) then t ^ i else 0 := by
      intro i
      have hindex : count + 1 - 1 - (i + 1) = count - 1 - i := by omega
      rw [hindex, mul_ite, mul_zero, ← pow_succ']
    rw [mulFrom, ih, eval_timesX ht, hsum, Finset.sum_range_succ', Finset.sum_congr rfl fun i _ ↦
      hrest i, ← Finset.mul_sum, pow_zero, Nat.add_sub_cancel, Nat.sub_zero]
    ring

theorem eval_mul (x y : Block) : eval t (mul x y) = eval t x * eval t y := by
  have hx : (∑ i ∈ Finset.range 128, if x.getLsbD (128 - 1 - i) then t ^ i else 0) = eval t x := by
    refine Finset.sum_congr rfl fun i hi ↦ ?_
    rw [BitVec.getMsbD_eq_getLsbD, decide_eq_true (Finset.mem_range.1 hi), Bool.true_and]
  rw [mul, eval_mulFrom ht, eval_zero, zero_add, hx, mul_comm]

/-- Squared again and again, a block stands for the powers of its value. -/
theorem eval_squares (x : Block) (n : ℕ) :
    eval t ((fun a ↦ mul a a)^[n] x) = eval t x ^ 2 ^ n := by
  induction n with
  | zero => rw [Function.iterate_zero, id_eq, pow_zero, pow_one]
  | succ n ih => rw [Function.iterate_succ_apply', eval_mul ht, ih, ← sq, ← pow_mul, pow_succ]

end Multiplication

end Evaluation

theorem coeff_eval (x : Block) (i : ℕ) :
    (eval (X : Bit[X]) x).coeff i = if x.getMsbD i then 1 else 0 := by
  have hcoeff : ∀ j, (if x.getMsbD j then (X : Bit[X]) ^ j else 0).coeff i =
      if j = i then (if x.getMsbD i then 1 else 0) else 0 := by
    intro j
    by_cases hj : j = i
    · subst hj
      rw [if_pos rfl]
      split <;> simp
    · rw [if_neg hj]
      split
      · rw [coeff_X_pow, if_neg (Ne.symm hj)]
      · rw [coeff_zero]
  rw [eval, finsetSum_coeff, Finset.sum_congr rfl fun j _ ↦ hcoeff j, Finset.sum_ite_eq']
  split
  · rfl
  · next hi =>
    rw [BitVec.getMsbD_of_ge x i (by simpa using hi), if_neg Bool.false_ne_true]

theorem degree_eval (x : Block) : (eval (X : Bit[X]) x).degree < (128 : ℕ) := by
  rw [degree_lt_iff_coeff_zero]
  intro i hi
  rw [coeff_eval, BitVec.getMsbD_of_ge x i (by simpa using hi), if_neg Bool.false_ne_true]

theorem eq_zero_of_eval {x : Block} (h : eval (X : Bit[X]) x = 0) : x = 0 := by
  refine BitVec.eq_of_getMsbD_eq fun i _ ↦ ?_
  have hcoeff := coeff_eval x i
  rw [h, coeff_zero] at hcoeff
  cases hbit : x.getMsbD i with
  | false => simp
  | true =>
    rw [hbit, if_pos rfl] at hcoeff
    exact absurd hcoeff zero_ne_one

theorem mk_eval (p : Bit[X]) (x : Block) :
    AdjoinRoot.mk p (eval X x) = eval (AdjoinRoot.root p) x := by
  simp only [eval, map_sum, apply_ite (AdjoinRoot.mk p), map_pow, AdjoinRoot.mk_X, map_zero]

/-- A block that has the root of a polynomial of its degree or more is zero. -/
theorem eq_zero_of_eval_root {p : Bit[X]} (hp : (128 : ℕ) ≤ p.degree) {x : Block}
    (h : eval (AdjoinRoot.root p) x = 0) : x = 0 := by
  rw [← mk_eval, AdjoinRoot.mk_eq_zero] at h
  exact eq_zero_of_eval (eq_zero_of_dvd_of_degree_lt h ((degree_eval x).trans_le hp))

noncomputable def modulus : Bit[X] := X ^ 128 + eval X reduction

theorem monic_modulus : modulus.Monic := by
  unfold modulus
  exact monic_X_pow_add (degree_eval reduction)

theorem natDegree_modulus : modulus.natDegree = 128 := by
  have hdegree : (eval (X : Bit[X]) reduction).degree < (X ^ 128 : Bit[X]).degree := by
    rw [degree_X_pow]
    exact degree_eval reduction
  unfold modulus
  rw [natDegree_add_eq_left_of_degree_lt hdegree, natDegree_X_pow]

theorem degree_modulus : modulus.degree = (128 : ℕ) := by
  rw [← natDegree_modulus]
  exact degree_eq_natDegree monic_modulus.ne_zero

theorem root_pow : AdjoinRoot.root modulus ^ 128 = eval (AdjoinRoot.root modulus) reduction := by
  have hmodulus : modulus = X ^ 128 + eval X reduction := by unfold modulus; exact Eq.refl _
  have hzero := AdjoinRoot.mk_self (f := modulus)
  rw [congrArg (AdjoinRoot.mk modulus) hmodulus] at hzero
  rw [map_add, map_pow, AdjoinRoot.mk_X, mk_eval] at hzero
  have hself := add_self_eq_zero (eval (AdjoinRoot.root modulus) reduction)
  exact add_right_cancel (hzero.trans hself.symm)

def halfway : Block := 0x6f9945a9e519a7229d4c1ad657f8a686

def halfwayInverse : Block := 0x180da934bf53158251c13dbb149f5279

section Numbers

/-- What is multiplied, as numbers, since those are what the kernel computes with. -/
def mulNumbers (x : ℕ) : (count : ℕ) → (v sum : ℕ) → ℕ
  | 0, _, sum => sum
  | count + 1, v, sum =>
    mulNumbers x count (v / 2 ^^^ v % 2 * 0xE1000000000000000000000000000000)
      (sum ^^^ x >>> count % 2 * v)

theorem toNat_timesX (v : Block) :
    (timesX v).toNat = v.toNat / 2 ^^^ v.toNat % 2 * 0xE1000000000000000000000000000000 := by
  have hbit : v.getLsbD 0 = decide (v.toNat % 2 = 1) := Nat.testBit_zero v.toNat
  have hhalf : (v >>> 1).toNat = v.toNat / 2 := by
    rw [BitVec.toNat_ushiftRight, Nat.shiftRight_one]
  rw [timesX, hbit]
  rcases Nat.mod_two_eq_zero_or_one v.toNat with h | h
  · rw [h, Nat.zero_mul, Nat.xor_zero, if_neg (by decide), hhalf]
  · rw [h, Nat.one_mul, if_pos (by decide), BitVec.toNat_xor, hhalf]
    rfl

theorem toNat_mulFrom (x : Block) (count : ℕ) (v sum : Block) :
    (mulFrom x count v sum).toNat = mulNumbers x.toNat count v.toNat sum.toNat := by
  induction count generalizing v sum with
  | zero => rfl
  | succ count ih =>
    have hbit : x.getLsbD count = decide (x.toNat >>> count % 2 = 1) := by
      rw [Nat.shiftRight_eq_div_pow, ← Nat.testBit_eq_decide_div_mod_eq]
      rfl
    rw [mulFrom, ih, mulNumbers, toNat_timesX, hbit]
    rcases Nat.mod_two_eq_zero_or_one (x.toNat >>> count) with h | h
    · rw [h, Nat.zero_mul, Nat.xor_zero, if_neg (by decide)]
    · rw [h, Nat.one_mul, if_pos (by decide), BitVec.toNat_xor]

theorem toNat_mul (x y : Block) : (mul x y).toNat = mulNumbers x.toNat 128 y.toNat 0 :=
  toNat_mulFrom x 128 y 0

theorem toNat_squares (x : Block) (n : ℕ) :
    ((fun a ↦ mul a a)^[n] x).toNat = (fun a ↦ mulNumbers a 128 a 0)^[n] x.toNat :=
  Function.Semiconj.iterate_right (fun a ↦ toNat_mul a a) n x

end Numbers

theorem squares_indeterminate : (fun a ↦ mul a a)^[64] indeterminate = halfway := by
  rw [← BitVec.toNat_inj, toNat_squares]
  decide +kernel

theorem squares_halfway : (fun a ↦ mul a a)^[64] halfway = indeterminate := by
  rw [← BitVec.toNat_inj, toNat_squares]
  decide +kernel

theorem mul_halfwayInverse : mul halfwayInverse (halfway ^^^ indeterminate) = one := by
  rw [← BitVec.toNat_inj, toNat_mul]
  decide +kernel

noncomputable def frobenius (n : ℕ) : Bit[X] := X ^ 2 ^ n + X

theorem mk_frobenius (n : ℕ) : AdjoinRoot.mk modulus (frobenius n) =
    AdjoinRoot.root modulus ^ 2 ^ n + AdjoinRoot.root modulus := by
  rw [frobenius, map_add, map_pow, AdjoinRoot.mk_X]

theorem natDegree_dvd_iff {r : Bit[X]} (hr : Irreducible r) (n : ℕ) :
    r.natDegree ∣ n ↔ r ∣ frobenius n := by
  have hsub : (X : Bit[X]) ^ 2 ^ n - X = frobenius n := by
    rw [frobenius, sub_eq_iff_eq_add, add_assoc, add_self_eq_zero, add_zero]
  rw [hr.natDegree_dvd_iff_dvd_X_pow_card_pow_sub_X, card_bit, hsub]

theorem root_pow_halfway :
    AdjoinRoot.root modulus ^ 2 ^ 64 = eval (AdjoinRoot.root modulus) halfway := by
  have hsquares := eval_squares root_pow indeterminate 64
  rwa [squares_indeterminate, eval_indeterminate, eq_comm] at hsquares

theorem isCoprime_of_dvd {p a f : Bit[X]} (h : p ∣ a * f - 1) : IsCoprime p f := by
  obtain ⟨c, hc⟩ := h
  exact ⟨-c, a, by linear_combination hc⟩

/-- The roots of the modulus are in the field of `2 ^ 128` elements. -/
theorem modulus_dvd : modulus ∣ frobenius 128 := by
  have hsquares := eval_squares root_pow halfway 64
  have hpow : 2 ^ 64 * 2 ^ 64 = 2 ^ 128 := (pow_add 2 64 64).symm
  rw [squares_halfway, eval_indeterminate, ← root_pow_halfway, ← pow_mul, hpow] at hsquares
  rw [← AdjoinRoot.mk_eq_zero, mk_frobenius, ← hsquares, add_self_eq_zero]

/-- None of them is in the field of `2 ^ 64` elements. -/
theorem isCoprime_modulus : IsCoprime modulus (frobenius 64) := by
  have hmul := eval_mul root_pow halfwayInverse (halfway ^^^ indeterminate)
  rw [mul_halfwayInverse, eval_one, eval_xor, eval_indeterminate, ← root_pow_halfway] at hmul
  have hdvd : modulus ∣ eval X halfwayInverse * frobenius 64 - 1 := by
    rw [← AdjoinRoot.mk_eq_zero, map_sub, map_mul, mk_frobenius, mk_eval, map_one, ← hmul, sub_self]
  exact isCoprime_of_dvd hdvd

theorem dvd_half {d : ℕ} (hd : d ∣ 128) (hle : d ≤ 64) : d ∣ 64 := by
  obtain ⟨k, hk, rfl⟩ := (Nat.dvd_prime_pow Nat.prime_two (m := 7)).1 hd
  have hlt : k ≤ 6 := by
    by_contra hk'
    obtain rfl : k = 7 := by omega
    exact absurd hle (by decide)
  exact (Nat.pow_dvd_pow 2 hlt)

/-- The test of Rabin: a factor of low degree would have its roots in the smaller field. -/
theorem irreducible_modulus : Irreducible modulus := by
  have hne : modulus ≠ 1 := by
    intro hone
    have hdegree := natDegree_modulus
    rw [hone, natDegree_one] at hdegree
    cases hdegree
  rw [monic_modulus.irreducible_iff_lt_natDegree_lt hne, natDegree_modulus]
  intro q hq hdegree hdvd
  rw [Finset.mem_Ioc] at hdegree
  have hunit : ¬ IsUnit q := by
    intro hunit
    rw [natDegree_eq_zero_of_isUnit hunit] at hdegree
    exact absurd hdegree.1 (Nat.lt_irrefl 0)
  obtain ⟨r, hr, hrq⟩ : ∃ r : Bit[X], Irreducible r ∧ r ∣ q :=
    WfDvdMonoid.exists_irreducible_factor hunit hq.ne_zero
  have hle : r.natDegree ≤ 64 := (natDegree_le_of_dvd hrq hq.ne_zero).trans hdegree.2
  have hr_modulus : r ∣ modulus := hrq.trans hdvd
  have hdvd_half := dvd_half ((natDegree_dvd_iff hr 128).2 (hr_modulus.trans modulus_dvd)) hle
  exact hr.not_isUnit
    (isCoprime_modulus.isUnit_of_dvd' hr_modulus ((natDegree_dvd_iff hr 64).1 hdvd_half))

theorem eval_root_injective : Function.Injective (eval (AdjoinRoot.root modulus)) := by
  intro x y h
  have hzero : eval (AdjoinRoot.root modulus) (x ^^^ y) = 0 := by
    rw [eval_xor, h, add_self_eq_zero]
  exact BitVec.xor_eq_zero_iff.1 (eq_zero_of_eval_root degree_modulus.ge hzero)

/-- Blocks are told from their multiples by a block that is not zero. -/
theorem mul_injective {h : Block} (hh : h ≠ 0) : Function.Injective fun x ↦ mul x h := by
  have : Fact (Irreducible modulus) := ⟨irreducible_modulus⟩
  intro x y hxy
  have heval := congrArg (eval (AdjoinRoot.root modulus)) hxy
  simp only [eval_mul root_pow] at heval
  have hne : eval (AdjoinRoot.root modulus) h ≠ 0 := by
    rw [← eval_zero (AdjoinRoot.root modulus)]
    exact eval_root_injective.ne hh
  exact eval_root_injective (mul_right_cancel₀ hne heval)

end ColumnFunctions.Gcm
