import ColumnFunctions.Proofs.Json.Written
import ColumnFunctions.Proofs.Text.Trimmed
import ColumnFunctions.Text.Numeral

namespace ColumnFunctions.Text

open Json

inductive Unsigned : List Char → ℕ → Prop
  | none {ds : List Char} (h : Digits ds) : Unsigned ds (Nat.ofDigitChars 10 ds 0)
  | plus {ds : List Char} (h : Digits ds) : Unsigned ('+' :: ds) (Nat.ofDigitChars 10 ds 0)

inductive Signed : List Char → ℤ → Prop
  | none {ds : List Char} (h : Digits ds) : Signed ds (Nat.ofDigitChars 10 ds 0)
  | plus {ds : List Char} (h : Digits ds) : Signed ('+' :: ds) (Nat.ofDigitChars 10 ds 0)
  | minus {ds : List Char} (h : Digits ds) : Signed ('-' :: ds) (-(Nat.ofDigitChars 10 ds 0 : ℕ))

def Denotes (s : String) (n : ℤ) : Prop :=
  ∃ b cs b', s.toList = b ++ (cs ++ b') ∧ AllBlank b ∧ AllBlank b' ∧ Signed cs n

theorem natOfChars?_eq_some {cs : List Char} {m : ℕ} :
    natOfChars? cs = some m ↔ Digits cs ∧ Nat.ofDigitChars 10 cs 0 = m := by
  have hvalue : Nat.ofDigitChars 10 cs 0 = cs.foldl (fun n c ↦ n * 10 + (c.toNat - 48)) 0 := by
    rw [Nat.ofDigitChars_eq_foldl]
    simp only [Nat.mul_comm 10]
    rfl
  rw [natOfChars?, hvalue]
  by_cases h : Digits cs
  · have hpos : ¬ (cs = [] ∨ ¬ cs.all Char.isDigit) := by
      rw [not_or, not_not, List.all_eq_true]
      exact h
    rw [if_neg hpos, Option.some.injEq, and_iff_right h]
  · have hneg : cs = [] ∨ ¬ cs.all Char.isDigit := by
      rw [← not_not (a := cs = []), ← not_and_or, List.all_eq_true]
      exact h
    rw [if_pos hneg]
    exact iff_of_false (nomatch ·) fun h' ↦ h h'.1

theorem not_digits_cons {c : Char} {cs : List Char} (h : c.isDigit = false) :
    ¬ Digits (c :: cs) := by
  intro hd
  rw [hd.2 c List.mem_cons_self] at h
  cases h

theorem natOfSigned?_eq_some {cs : List Char} {m : ℕ} :
    natOfSigned? cs = some m ↔ Unsigned cs m := by
  constructor
  · intro h
    rw [natOfSigned?.eq_def] at h
    split at h
    · obtain ⟨hd, rfl⟩ := natOfChars?_eq_some.1 h
      exact .plus hd
    · obtain ⟨hd, rfl⟩ := natOfChars?_eq_some.1 h
      exact .none hd
  · intro h
    cases h with
    | plus hd => exact natOfChars?_eq_some.2 ⟨hd, rfl⟩
    | none hd =>
      rw [natOfSigned?.eq_def]
      split
      · exact absurd hd (not_digits_cons (by decide))
      · exact natOfChars?_eq_some.2 ⟨hd, rfl⟩

theorem Unsigned.signed {cs : List Char} {m : ℕ} (h : Unsigned cs m) : Signed cs m := by
  cases h with
  | none hd => exact .none hd
  | plus hd => exact .plus hd

theorem intOfSigned?_eq_some {cs : List Char} {n : ℤ} : intOfSigned? cs = some n ↔ Signed cs n := by
  constructor
  · intro h
    rw [intOfSigned?.eq_def] at h
    split at h
    · obtain ⟨m, hm, rfl⟩ := Option.map_eq_some_iff.1 h
      obtain ⟨k, hk, hm⟩ := Option.bind_eq_some_iff.1 hm
      cases hm
      obtain ⟨hd, rfl⟩ := natOfChars?_eq_some.1 hk
      exact .minus hd
    · obtain ⟨m, hm, rfl⟩ := Option.map_eq_some_iff.1 h
      exact (natOfSigned?_eq_some.1 hm).signed
  · intro h
    cases h with
    | none hd =>
      rw [intOfSigned?.eq_def]
      split
      · exact absurd hd (not_digits_cons (by decide))
      · rw [natOfSigned?_eq_some.2 (.none hd)]
        rfl
    | plus hd => exact congrArg (Option.map Int.ofNat) (natOfChars?_eq_some.2 ⟨hd, rfl⟩)
    | minus hd =>
      rw [intOfSigned?, natOfChars?_eq_some.2 ⟨hd, rfl⟩]
      rfl

theorem not_isBlank_of_isDigit {c : Char} (h : c.isDigit) : ¬ isBlank c := by
  have hrange : 48 ≤ c.toNat ∧ c.toNat ≤ 57 := Char.isDigit_iff_toNat.1 h
  simp only [isBlank, decide_eq_true_eq, Bool.decide_or, Bool.or_eq_true]
  omega

theorem Signed.ne_nil {cs : List Char} {n : ℤ} (h : Signed cs n) : cs ≠ [] := by
  cases h with
  | none hd => exact hd.1
  | plus | minus => exact List.cons_ne_nil _ _

theorem Signed.char {cs : List Char} {n : ℤ} (h : Signed cs n) :
    ∀ c ∈ cs, c.isDigit ∨ c = '+' ∨ c = '-' := by
  cases h with
  | none hd => exact fun c hc ↦ .inl (hd.2 c hc)
  | plus hd | minus hd =>
    exact List.forall_mem_cons.2 ⟨by decide, fun c hc ↦ .inl (hd.2 c hc)⟩

theorem Signed.not_isBlank {cs : List Char} {n : ℤ} (h : Signed cs n) :
    ∀ c ∈ cs, ¬ isBlank c := by
  intro c hc
  rcases h.char c hc with hd | rfl | rfl
  · exact not_isBlank_of_isDigit hd
  · decide
  · decide

theorem denotes_iff {s : String} {n : ℤ} :
    Denotes s n ↔ intOfSigned? (trimChars s.toList) = some n := by
  rw [intOfSigned?_eq_some]
  constructor
  · rintro ⟨b, cs, b', hs, hb, hb', h⟩
    rwa [hs, trimChars_append hb hb' h.ne_nil h.not_isBlank]
  · intro h
    obtain ⟨b, b', hs, hb, hb'⟩ := exists_trimChars s.toList
    exact ⟨b, _, b', hs, hb, hb', h⟩

theorem signed_toString (n : ℤ) : Signed (toString n).toList n := by
  cases n with
  | ofNat m =>
    have hdigits := Signed.none (Numeral.digits_toDigits m)
    rw [Nat.ofDigitChars_ten_toDigits] at hdigits
    rwa [← Nat.toList_repr] at hdigits
  | negSucc m =>
    have hdigits := Signed.minus (Numeral.digits_toDigits (m + 1))
    rw [Nat.ofDigitChars_ten_toDigits] at hdigits
    have htext : (toString (Int.negSucc m)).toList = '-' :: Nat.toDigits 10 (m + 1) := by
      rw [← Nat.toList_repr]
      exact String.toList_append
    rwa [htext]

theorem denotes_toString (n : ℤ) : Denotes (toString n) n := by
  have hempty : AllBlank [] := fun _ hc ↦ nomatch hc
  exact ⟨[], _, [], by simp, hempty, hempty, signed_toString n⟩

theorem Denotes.unique {s : String} {n m : ℤ} (h : Denotes s n) (h' : Denotes s m) : n = m :=
  Option.some.inj ((denotes_iff.1 h).symm.trans (denotes_iff.1 h'))

theorem toString_injective {n m : ℤ} (h : toString n = toString m) : n = m :=
  (denotes_toString n).unique (h ▸ denotes_toString m)

end ColumnFunctions.Text
