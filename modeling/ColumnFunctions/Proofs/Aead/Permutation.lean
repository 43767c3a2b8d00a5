import ColumnFunctions.Proofs.Aead
import ColumnFunctions.Proofs.Aead.Block
import Mathlib.Data.Fintype.EquivFin
import Mathlib.Data.List.Basic
import Mathlib.Data.Nat.Bitwise

namespace ColumnFunctions.Aes

section Substitution

theorem size_substitutionTable : substitutionTable.size = 256 := by
  decide +kernel

theorem testBit_mask (ns : List ℕ) (mask k : ℕ) :
    (ns.foldl (fun mask n ↦ mask ||| 2 ^ n) mask).testBit k =
      (mask.testBit k || decide (k ∈ ns)) := by
  induction ns generalizing mask with
  | nil => simp
  | cons n ns ih =>
    rw [List.foldl_cons, ih, Nat.testBit_or, Nat.testBit_two_pow, Bool.or_assoc]
    simp [eq_comm]

theorem mask_substitutionTable :
    (substitutionTable.toList.map UInt8.toNat).foldl (fun mask n ↦ mask ||| 2 ^ n) 0 =
      2 ^ 256 - 1 := by
  decide +kernel

theorem mem_substitutionTable (c : UInt8) : c ∈ substitutionTable.toList := by
  have hbit := testBit_mask (substitutionTable.toList.map UInt8.toNat) 0 c.toNat
  rw [mask_substitutionTable, Nat.testBit_two_pow_sub_one, decide_eq_true c.toNat_lt,
    Nat.zero_testBit, Bool.false_or, eq_comm, decide_eq_true_eq, List.mem_map] at hbit
  obtain ⟨b, hb, hbc⟩ := hbit
  exact UInt8.toNat_inj.1 hbc ▸ hb

theorem substitute_surjective : Function.Surjective substitute := by
  intro c
  obtain ⟨i, hi, hget⟩ := List.getElem_of_mem (mem_substitutionTable c)
  have hsome : substitutionTable[i]? = some c := by
    rw [← Array.getElem?_toList, List.getElem?_eq_getElem hi, hget]
  rw [Array.length_toList, size_substitutionTable] at hi
  refine ⟨UInt8.ofNat i, ?_⟩
  rw [substitute, UInt8.toNat_ofNat_of_lt' hi, hsome, Option.getD_some]

/-- Every octet stands in the table, so none stands there twice. -/
theorem substitute_injective : Function.Injective substitute := by
  have hfinite : Finite UInt8 := Finite.of_injective UInt8.toFin fun _ _ ↦ UInt8.toFin_inj.1
  exact Finite.injective_iff_surjective.2 substitute_surjective

end Substitution

section Rows

@[simp] theorem length_shiftRows (state : Bytes) : (shiftRows state).length = 16 := by
  rw [shiftRows, List.length_map, List.length_range]

theorem getD_shiftRows (state : Bytes) {i : ℕ} (hi : i < 16) :
    (shiftRows state).getD (13 * i % 16) 0 = state.getD i 0 := by
  have hplace : 5 * (13 * i % 16) % 16 = i := by omega
  have hlt : 13 * i % 16 < (List.range 16).length := by
    rw [List.length_range]
    omega
  rw [shiftRows, List.getD_eq_getElem _ _ (by rw [List.length_map]; exact hlt), List.getElem_map,
    List.getElem_range, hplace]

theorem shiftRows_inj {s t : Bytes} (hs : s.length = 16) (ht : t.length = 16)
    (h : shiftRows s = shiftRows t) : s = t := by
  refine List.ext_getElem (hs.trans ht.symm) fun i his hit ↦ ?_
  have hi : i < 16 := hs ▸ his
  have hget := getD_shiftRows s hi
  rwa [h, getD_shiftRows t hi, List.getD_eq_getElem _ _ hit, List.getD_eq_getElem _ _ his,
    eq_comm] at hget

end Rows

section Columns

theorem xor_left_comm (a b c : UInt8) : a ^^^ (b ^^^ c) = b ^^^ (a ^^^ c) := by
  rw [← UInt8.xor_assoc, UInt8.xor_comm a, UInt8.xor_assoc]

theorem xor_left_cancel (a b : UInt8) : a ^^^ (a ^^^ b) = b := by
  rw [← UInt8.xor_assoc, UInt8.xor_self, UInt8.zero_xor]

theorem double_xor (a b : UInt8) : double (a ^^^ b) = double a ^^^ double b := by
  have hmsb : ∀ c : UInt8, c < 0x80 ↔ c.toBitVec.msb = false := by
    intro c
    rw [UInt8.lt_iff_toBitVec_lt, BitVec.lt_def, BitVec.msb_eq_false_iff_two_mul_lt]
    change c.toBitVec.toNat < 128 ↔ 2 * c.toBitVec.toNat < 256
    omega
  have hshift : (a ^^^ b) <<< 1 = (a <<< 1) ^^^ (b <<< 1) := by
    rw [← UInt8.toBitVec_inj]
    exact BitVec.shiftLeft_xor_distrib _ _ _
  simp only [double, hmsb, UInt8.toBitVec_xor, BitVec.msb_xor, hshift]
  cases a.toBitVec.msb <;> cases b.toBitVec.msb <;>
    simp [UInt8.xor_assoc, UInt8.xor_comm, xor_left_comm]

def mixed (a b c d : UInt8) : UInt8 := double a ^^^ triple b ^^^ c ^^^ d

/-- The octet of the column that was mixed. What the mix does is undone by a matrix of up to three
doublings of each octet, which are taken together here. -/
def unmixed (a b c d : UInt8) : UInt8 :=
  let sum := a ^^^ b ^^^ c ^^^ d
  a ^^^ sum ^^^ double (a ^^^ b ^^^ double (a ^^^ c ^^^ double sum))

theorem unmixed_mixed (a b c d : UInt8) :
    unmixed (mixed a b c d) (mixed b c d a) (mixed c d a b) (mixed d a b c) = a := by
  simp only [unmixed, mixed, triple, double_xor, UInt8.xor_assoc, UInt8.xor_comm, xor_left_comm,
    UInt8.xor_self, xor_left_cancel, UInt8.xor_zero]

theorem mixColumns_cons (a b c d : UInt8) (rest : Bytes) :
    mixColumns (a :: b :: c :: d :: rest) =
      mixed a b c d :: mixed b c d a :: mixed c d a b :: mixed d a b c :: mixColumns rest := by
  simp only [mixColumns, mixed, UInt8.xor_assoc, UInt8.xor_comm, xor_left_comm]

/-- Octets that make up columns begin with one, unless there are none. -/
theorem exists_column {s : Bytes} {k : ℕ} (h : s.length = 4 * (k + 1)) :
    ∃ a b c d rest, s = a :: b :: c :: d :: rest ∧ List.length rest = 4 * k := by
  match s, h with
  | a :: b :: c :: d :: rest, h => exact ⟨a, b, c, d, rest, rfl, by simpa [Nat.mul_add] using h⟩

theorem length_mixColumns {s : Bytes} {k : ℕ} (h : s.length = 4 * k) :
    (mixColumns s).length = 4 * k := by
  induction k generalizing s with
  | zero =>
    obtain rfl := List.eq_nil_of_length_eq_zero h
    rfl
  | succ k ih =>
    obtain ⟨a, b, c, d, rest, rfl, hrest⟩ := exists_column h
    simp only [mixColumns, List.length_cons, ih hrest]
    rfl

theorem mixColumns_inj {s t : Bytes} {k : ℕ} (hs : s.length = 4 * k) (ht : t.length = 4 * k)
    (h : mixColumns s = mixColumns t) : s = t := by
  induction k generalizing s t with
  | zero => rw [List.eq_nil_of_length_eq_zero hs, List.eq_nil_of_length_eq_zero ht]
  | succ k ih =>
    obtain ⟨a, b, c, d, rest, rfl, hrest⟩ := exists_column hs
    obtain ⟨a', b', c', d', rest', rfl, hrest'⟩ := exists_column ht
    simp only [mixColumns_cons, List.cons.injEq] at h
    obtain ⟨ha, hb, hc, hd, h⟩ := h
    have ha' : a = a' := by rw [← unmixed_mixed a b c d, ha, hb, hc, hd, unmixed_mixed]
    have hb' : b = b' := by rw [← unmixed_mixed b c d a, ha, hb, hc, hd, unmixed_mixed]
    have hc' : c = c' := by rw [← unmixed_mixed c d a b, ha, hb, hc, hd, unmixed_mixed]
    have hd' : d = d' := by rw [← unmixed_mixed d a b c, ha, hb, hc, hd, unmixed_mixed]
    rw [ha', hb', hc', hd', ih hrest hrest' h]

end Columns

section Rounds

variable {s t key : Bytes}

theorem length_xor (hs : s.length = 16) (hk : key.length = 16) : (xor s key).length = 16 := by
  rw [xor, List.length_zipWith, hs, hk, Nat.min_self]

theorem xor_inj (hs : s.length = 16) (ht : t.length = 16) (hk : key.length = 16)
    (h : xor s key = xor t key) : s = t := by
  have hcancel := congrArg (xor · key) h
  simp only [xor] at hcancel
  rwa [Gcm.zipWith_xor_cancel (hs.trans hk.symm).le,
    Gcm.zipWith_xor_cancel (ht.trans hk.symm).le] at hcancel

theorem finalRound_inj (hs : s.length = 16) (ht : t.length = 16) (hk : key.length = 16)
    (h : finalRound s key = finalRound t key) : s = t := by
  have hrows := xor_inj (length_shiftRows _) (length_shiftRows _) hk h
  have hmap := shiftRows_inj ((List.length_map _).trans hs) ((List.length_map _).trans ht) hrows
  exact List.map_injective_iff.2 substitute_injective hmap

theorem round_inj (hs : s.length = 16) (ht : t.length = 16) (hk : key.length = 16)
    (h : round s key = round t key) : s = t := by
  have hlength : ∀ state, (mixColumns (shiftRows state)).length = 16 :=
    fun state ↦ length_mixColumns (k := 4) (length_shiftRows state)
  have hcolumns := xor_inj (hlength _) (hlength _) hk h
  have hrows := mixColumns_inj (k := 4) (length_shiftRows _) (length_shiftRows _) hcolumns
  have hmap := shiftRows_inj ((List.length_map _).trans hs) ((List.length_map _).trans ht) hrows
  exact List.map_injective_iff.2 substitute_injective hmap

theorem length_round (hk : key.length = 16) : (round s key).length = 16 :=
  length_xor (length_mixColumns (k := 4) (length_shiftRows _)) hk

theorem length_runRounds {keys : List Bytes} (hk : ∀ key ∈ keys, key.length = 16)
    (hs : s.length = 16) : (runRounds s keys).length = 16 := by
  fun_induction runRounds s keys with
  | case1 => exact hs
  | case2 => exact length_xor (length_shiftRows _) (hk _ List.mem_cons_self)
  | case3 s key keys _ ih =>
    rw [List.forall_mem_cons] at hk
    exact ih hk.2 (length_round hk.1)

theorem runRounds_inj {keys : List Bytes} (hk : ∀ key ∈ keys, key.length = 16)
    (hs : s.length = 16) (ht : t.length = 16) (h : runRounds s keys = runRounds t keys) :
    s = t := by
  fun_induction runRounds s keys generalizing t with
  | case1 => exact h
  | case2 s last =>
    exact finalRound_inj hs ht (hk _ List.mem_cons_self) h
  | case3 s key keys hne ih =>
    rw [runRounds] at h
    · rw [List.forall_mem_cons] at hk
      exact round_inj hs ht hk.1 (ih hk.2 (length_round hk.1) (length_round hk.1) h)
    · exact hne

end Rounds

section Schedule

theorem length_nextWord (index : ℕ) (constant : UInt8) {last earlier : Bytes}
    (hl : last.length = 4) (he : earlier.length = 4) :
    (nextWord index constant last earlier).length = 4 := by
  rw [nextWord, xor, List.length_zipWith, he]
  split
  · simp [xor, hl]
  · split <;> simp [hl]

theorem length_of_mem_extend (count index : ℕ) (constant : UInt8) {ws : List Bytes}
    (h8 : keyWords ≤ ws.length) (hws : ∀ w ∈ ws, w.length = 4) :
    ∀ w ∈ extend count index constant ws, w.length = 4 := by
  induction count generalizing index constant ws with
  | zero => exact hws
  | succ count ih =>
    have hget : ∀ i < keyWords, (ws.getD i []).length = 4 := by
      intro i hi
      have hlt : i < ws.length := Nat.lt_of_lt_of_le hi h8
      rw [List.getD_eq_getElem _ _ hlt]
      exact hws _ (List.getElem_mem hlt)
    rw [extend]
    refine ih _ _ (Nat.le_succ_of_le h8) (List.forall_mem_cons.2 ⟨?_, hws⟩)
    exact length_nextWord _ _ (hget 0 (by decide)) (hget (keyWords - 1) (by decide))

theorem length_of_mem_words (b : Bytes) : ∀ w ∈ words b, w.length = 4 := by
  fun_induction words b with
  | case1 a b c d rest ih => exact List.forall_mem_cons.2 ⟨rfl, ih⟩
  | case2 => exact fun _ h ↦ nomatch h

theorem length_words {b : Bytes} {k : ℕ} (h : b.length = 4 * k) : (words b).length = k := by
  induction k generalizing b with
  | zero =>
    obtain rfl := List.eq_nil_of_length_eq_zero h
    rfl
  | succ k ih =>
    obtain ⟨x, y, z, w, rest, rfl, hrest⟩ := exists_column h
    rw [words, List.length_cons, ih hrest]

theorem length_of_mem_groupKeys {ws : List Bytes} (h : ∀ w ∈ ws, w.length = 4) :
    ∀ key ∈ groupKeys ws, key.length = 16 := by
  fun_induction groupKeys ws with
  | case1 a b c d rest ih =>
    simp only [List.forall_mem_cons] at h ⊢
    obtain ⟨ha, hb, hc, hd, hrest⟩ := h
    exact ⟨by simp [ha, hb, hc, hd], ih hrest⟩
  | case2 => exact fun _ h ↦ nomatch h

theorem length_of_mem_roundKeys {key : Bytes} (h : key.length = 32) :
    ∀ roundKey ∈ roundKeys key, roundKey.length = 16 := by
  refine length_of_mem_groupKeys fun w hw ↦ ?_
  rw [List.mem_reverse] at hw
  refine length_of_mem_extend _ _ _ ?_ ?_ w hw
  · rw [List.length_reverse, length_words (k := 8) h]
    exact Nat.le_refl 8
  · exact fun w hw ↦ length_of_mem_words key w (List.mem_reverse.1 hw)

end Schedule

/-- The cipher is a permutation of the blocks under each key. -/
theorem encrypt_injective {key : Bytes} (h : key.length = 32) :
    Function.Injective (encrypt key) := by
  have hkeys := length_of_mem_roundKeys h
  intro x y hxy
  simp only [encrypt, encryptWith] at hxy
  generalize roundKeys key = keys at hkeys hxy
  cases keys with
  | nil => exact hxy
  | cons first keys =>
    rw [List.forall_mem_cons] at hkeys
    have hfirst : ∀ x : Block, (xor x.toBytes first).length = 16 :=
      fun x ↦ length_xor (Block.length_toBytes x) hkeys.1
    have hlength : ∀ x : Block, (runRounds (xor x.toBytes first) keys).length = 16 :=
      fun x ↦ length_runRounds hkeys.2 (hfirst x)
    have hrounds := Block.eq_of_ofBytes_eq ((hlength x).trans (hlength y).symm) (hlength x).le hxy
    have hxor := runRounds_inj hkeys.2 (hfirst x) (hfirst y) hrounds
    exact Block.toBytes_injective
      (xor_inj (Block.length_toBytes x) (Block.length_toBytes y) hkeys.1 hxor)

end ColumnFunctions.Aes
