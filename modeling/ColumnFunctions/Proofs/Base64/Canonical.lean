import ColumnFunctions.Proofs.Base64
import Mathlib.Data.List.Basic

namespace ColumnFunctions.Base64

/-- The canonical texts for a number of octets. -/
inductive Canonical : (octets : ℕ) → List Char → Prop
  | nil : Canonical 0 []
  | one {v w : ℕ} (hv : v < 64) (hw : w < 64) (h : w % 16 = 0) :
      Canonical 1 [symbol v, symbol w, '=', '=']
  | two {v w x : ℕ} (hv : v < 64) (hw : w < 64) (hx : x < 64) (h : x % 4 = 0) :
      Canonical 2 [symbol v, symbol w, symbol x, '=']
  | cons {v w x y n : ℕ} {cs : List Char} (hv : v < 64) (hw : w < 64) (hx : x < 64) (hy : y < 64)
      (h : Canonical n cs) :
      Canonical (n + 3) (symbol v :: symbol w :: symbol x :: symbol y :: cs)

theorem Canonical.length_mod_four {n : ℕ} {cs : List Char} (h : Canonical n cs) :
    cs.length % 4 = 0 := by
  induction h with
  | nil | one | two => simp
  | cons _ _ _ _ _ ih =>
    simp only [List.length_cons]
    omega

theorem canonical_encodeChars (b : Bytes) : Canonical b.length (encodeChars b) := by
  fun_induction encodeChars b with
  | case1 a b c rest ih =>
    have ha := a.toNat_lt
    have hb := b.toNat_lt
    have hc := c.toNat_lt
    exact .cons (by omega) (by omega) (by omega) (by omega) ih
  | case2 a b =>
    have ha := a.toNat_lt
    have hb := b.toNat_lt
    exact .two (by omega) (by omega) (by omega) (by omega)
  | case3 a =>
    have ha := a.toNat_lt
    exact .one (by omega) (by omega) (by omega)
  | case4 => exact .nil

theorem Canonical.exists_encodeChars {n : ℕ} {cs : List Char} (h : Canonical n cs) :
    ∃ b : Bytes, b.length = n ∧ encodeChars b = cs := by
  induction h with
  | nil => exact ⟨[], rfl, rfl⟩
  | one hv hw h => exact ⟨_, rfl, encodeChars_take_one hv hw h⟩
  | two hv hw hx h => exact ⟨_, rfl, encodeChars_take_two hv hw hx h⟩
  | @cons v w x y n cs hv hw hx hy _ ih =>
    obtain ⟨b, rfl, rfl⟩ := ih
    refine ⟨octets v w x y ++ b, ?_, encodeChars_octets hv hw hx hy b⟩
    rw [List.length_append, Nat.add_comm]
    rfl

theorem canonical_iff {n : ℕ} {text : String} :
    Canonical n text.toList ↔ ∃ b : Bytes, b.length = n ∧ text = encode b := by
  constructor
  · intro h
    obtain ⟨b, hn, hcs⟩ := h.exists_encodeChars
    exact ⟨b, hn, by rw [encode, hcs, String.ofList_toList]⟩
  · rintro ⟨b, rfl, rfl⟩
    rw [encode, String.toList_ofList]
    exact canonical_encodeChars b

theorem exists_cons₅ {values : List ℕ} (h : 5 ≤ values.length) :
    ∃ v w x y z rest, values = v :: w :: x :: y :: z :: rest := by
  match values with
  | v :: w :: x :: y :: z :: rest => exact ⟨v, w, x, y, z, rest, rfl⟩
  | [] | [_] | [_, _] | [_, _, _] | [_, _, _, _] => simp at h

/-- Two octets in the last group take three symbols, of which the last leaves two bits over. -/
theorem canonical_padded {k : ℕ} {cs : List Char} :
    Canonical (3 * k + 2) cs ↔ ∃ values : List ℕ, values.length = 4 * k + 3 ∧
      (∀ v ∈ values, v < 64) ∧ (∀ v ∈ values.getLast?, v % 4 = 0) ∧
        cs = values.map symbol ++ ['='] := by
  induction k generalizing cs with
  | zero =>
    constructor
    · intro h
      cases h with
      | @two v w x hv hw hx h => exact ⟨[v, w, x], rfl, by simp [hv, hw, hx], by simpa using h, rfl⟩
    · rintro ⟨values, hlen, hlt, hlast, rfl⟩
      obtain ⟨v, w, x, rfl⟩ := List.length_eq_three.1 hlen
      simp only [List.forall_mem_cons] at hlt
      exact .two hlt.1 hlt.2.1 hlt.2.2.1 (hlast x rfl)
  | succ k ih =>
    constructor
    · intro h
      rw [Nat.mul_succ, Nat.add_right_comm] at h
      cases h with
      | @cons v w x y _ cs hv hw hx hy h =>
        obtain ⟨values, hlen, hlt, hlast, rfl⟩ := ih.1 h
        refine ⟨v :: w :: x :: y :: values, ?_, ?_, ?_, rfl⟩
        · simp only [List.length_cons, hlen]
          omega
        · simp only [List.forall_mem_cons]
          exact ⟨hv, hw, hx, hy, hlt⟩
        · obtain ⟨z, values, rfl⟩ := List.exists_cons_of_length_pos (by omega : 0 < values.length)
          simpa only [List.getLast?_cons_cons] using hlast
    · rintro ⟨values, hlen, hlt, hlast, rfl⟩
      have hlong : 5 ≤ values.length := by omega
      -- A group in front of others, which begin with `z`.
      obtain ⟨v, w, x, y, z, values, rfl⟩ := exists_cons₅ hlong
      simp only [List.length_cons] at hlen
      simp only [List.forall_mem_cons] at hlt
      obtain ⟨hv, hw, hx, hy, hlt⟩ := hlt
      rw [Nat.mul_succ, Nat.add_right_comm]
      refine .cons hv hw hx hy (ih.2 ⟨z :: values, by rw [List.length_cons]; omega, ?_, ?_, rfl⟩)
      · exact List.forall_mem_cons.2 hlt
      · simpa only [List.getLast?_cons_cons] using hlast

end ColumnFunctions.Base64
