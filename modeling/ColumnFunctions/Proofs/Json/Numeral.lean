import ColumnFunctions.Attempt
import ColumnFunctions.Json.Numeral
import Mathlib.Algebra.Group.Nat.Defs
import Mathlib.Data.List.TakeWhile

namespace ColumnFunctions.Json

def Digits (cs : List Char) : Prop := cs ≠ [] ∧ ∀ c ∈ cs, c.isDigit

def digitValues (cs : List Char) : List Nat := cs.map fun d ↦ d.toNat - 48

/-- The text does not begin as a number would go on. -/
def Ends (rest : List Char) : Prop :=
  ∀ c ∈ rest.head?, c.isDigit = false ∧ c ≠ '.' ∧ c ≠ 'e' ∧ c ≠ 'E'

namespace Numeral

inductive Sign : Bool → List Char → Prop
  | plus : Sign false []
  | minus : Sign true ['-']

inductive Whole : List Nat → List Char → Prop
  | zero : Whole [0] ['0']
  | digits {cs : List Char} (h : Digits cs) (h₀ : cs.head? ≠ some '0') : Whole (digitValues cs) cs

inductive Fraction : Option (List Nat) → List Char → Prop
  | none : Fraction none []
  | some {cs : List Char} (h : Digits cs) : Fraction (some (digitValues cs)) ('.' :: cs)

inductive ExponentSign : Bool → List Char → Prop
  | none : ExponentSign false []
  | plus : ExponentSign false ['+']
  | minus : ExponentSign true ['-']

inductive Exponent : Option (Bool × List Nat) → List Char → Prop
  | none : Exponent none []
  | some {e : Char} {down : Bool} {sign cs : List Char} (he : e = 'e' ∨ e = 'E')
      (hs : ExponentSign down sign) (h : Digits cs) :
      Exponent (some (down, digitValues cs)) (e :: sign ++ cs)

inductive Spells : Numeral → List Char → Prop
  | mk {negative : Bool} {whole : List Nat} {fraction : Option (List Nat)}
      {exponent : Option (Bool × List Nat)} {s w f e : List Char} (hs : Sign negative s)
      (hw : Whole whole w) (hf : Fraction fraction f) (he : Exponent exponent e) :
      Spells ⟨negative, whole, fraction, exponent⟩ (s ++ (w ++ (f ++ e)))

end Numeral

theorem ends_of_head {c : Char} {rest : List Char} (h : c.isDigit = false) (hd : c ≠ '.')
    (he : c ≠ 'e') (hE : c ≠ 'E') : Ends (c :: rest) := by
  intro d hc
  cases hc
  exact ⟨h, hd, he, hE⟩

theorem Cursor.digits_eq {cs rest : List Char} (h : ∀ c ∈ cs, c.isDigit)
    (hr : ∀ c ∈ rest.head?, c.isDigit = false) (offset : Nat) :
    (⟨cs ++ rest, offset⟩ : Cursor).digits = (digitValues cs, ⟨rest, offset + cs.length⟩) := by
  have hrest : rest.takeWhile Char.isDigit = [] ∧ rest.dropWhile Char.isDigit = rest := by
    cases rest with
    | nil => exact ⟨rfl, rfl⟩
    | cons c rest => simp [hr c rfl]
  simp only [Cursor.digits, List.takeWhile_append_of_pos h, List.dropWhile_append_of_pos h, hrest,
    List.append_nil]
  rfl

namespace Numeral

/-- A reader takes from the front of a text what is written there in a certain way. -/
def Takes {α : Type} (Written : α → List Char → Prop)
    (read : Cursor → Except Fault (α × Cursor)) : Prop :=
  ∀ c a c', read c = .ok (a, c') → ∃ cs, c.rest = cs ++ c'.rest ∧ Written a cs

def TakesAll {α : Type} (Written : α → List Char → Prop) (Stop : List Char → Prop)
    (read : Cursor → Except Fault (α × Cursor)) : Prop :=
  ∀ a cs rest offset, Written a cs → Stop rest →
    read ⟨cs ++ rest, offset⟩ = .ok (a, ⟨rest, offset + cs.length⟩)

theorem digits_takes (c : Cursor) (h : ∃ d rest, c.rest = d :: rest ∧ d.isDigit) :
    ∃ cs, c.rest = cs ++ c.digits.2.rest ∧ Digits cs ∧ c.digits.1 = digitValues cs := by
  obtain ⟨d, rest, hc, hd⟩ := h
  refine ⟨c.rest.takeWhile Char.isDigit, List.takeWhile_append_dropWhile.symm, ⟨?_, ?_⟩, rfl⟩
  · rw [hc, List.takeWhile_cons_of_pos hd]
    exact List.cons_ne_nil _ _
  · intro e he
    exact List.mem_takeWhile_imp he

theorem readSome_takes :
    Takes (fun ds cs ↦ Digits cs ∧ ds = digitValues cs) readSome := by
  intro c ds c' h
  simp only [readSome] at h
  split at h
  · cases h
  · next d rest hc =>
    split at h
    · next hd =>
      obtain ⟨cs, hrest, hcs, hvalues⟩ := digits_takes c ⟨d, rest, hc, hd⟩
      cases h
      exact ⟨cs, hrest, hcs, hvalues⟩
    · cases h

theorem readSome_takesAll : TakesAll (fun ds cs ↦ Digits cs ∧ ds = digitValues cs)
    (fun rest ↦ ∀ c ∈ rest.head?, c.isDigit = false) readSome := by
  rintro ds cs rest offset ⟨⟨hne, hcs⟩, rfl⟩ hr
  cases cs with
  | nil => exact absurd rfl hne
  | cons d cs =>
    have hd : d.isDigit := hcs d List.mem_cons_self
    rw [← Cursor.digits_eq hcs hr]
    simp only [readSome, List.cons_append, if_pos hd]

theorem readWhole_takes : Takes Whole readWhole := by
  intro c ds c' h
  simp only [readWhole] at h
  split at h
  · cases h
  · next d rest hc =>
    split at h
    · cases h
    · cases h
      exact ⟨['0'], hc, .zero⟩
  · next d rest hzero hc =>
    split at h
    · next hd =>
      obtain ⟨cs, hrest, hcs, hvalues⟩ := digits_takes c ⟨d, rest, hc, hd⟩
      rw [Except.ok.inj h] at hrest hvalues
      refine ⟨cs, hrest, ?_⟩
      obtain rfl : ds = digitValues cs := hvalues
      by_cases h₀ : cs.head? = some '0'
      · -- A zero is followed by nothing.
        obtain ⟨more, rfl⟩ : ∃ more, cs = '0' :: more := List.head?_eq_some_iff.1 h₀
        rw [hc, List.cons_append, List.cons.injEq] at hrest
        cases more with
        | nil => exact .zero
        | cons e more => exact (hzero e _ hrest.1 hrest.2).elim
      · exact .digits hcs h₀
    · cases h

theorem readWhole_takesAll :
    TakesAll Whole (fun rest ↦ ∀ c ∈ rest.head?, c.isDigit = false) readWhole := by
  intro ds cs rest offset h hr
  cases h with
  | zero =>
    cases rest with
    | nil => rfl
    | cons c rest =>
      have hc : c.isDigit = false := hr c rfl
      simp only [readWhole, List.cons_append, List.nil_append, hc]
      rfl
  | digits h h₀ =>
    obtain ⟨hne, hcs⟩ := h
    rw [← Cursor.digits_eq hcs hr]
    cases cs with
    | nil => exact absurd rfl hne
    | cons d cs =>
      have hd : d.isDigit := hcs d List.mem_cons_self
      have hd₀ : d ≠ '0' := fun h ↦ h₀ (congrArg some h)
      simp only [readWhole, List.cons_append]
      split
      · next heq => cases heq
      · next heq => exact absurd (List.cons.inj heq).1 hd₀
      · next heq =>
        cases heq
        rw [if_pos hd]

theorem readFraction_takes : Takes Fraction readFraction := by
  intro c fraction c' h
  simp only [readFraction] at h
  split at h
  · next rest hc =>
    obtain ⟨⟨ds, c₁⟩, hs, h⟩ := bind_eq_ok.1 h
    cases h
    obtain ⟨cs, hrest, hcs, rfl⟩ := readSome_takes _ _ _ hs
    refine ⟨'.' :: cs, ?_, .some hcs⟩
    dsimp only at hrest ⊢
    rw [hc, hrest, List.cons_append]
  · cases h
    exact ⟨[], rfl, .none⟩

theorem readFraction_takesAll :
    TakesAll Fraction (fun rest ↦ ∀ c ∈ rest.head?, c.isDigit = false ∧ c ≠ '.')
      readFraction := by
  intro fraction cs rest offset h hr
  cases h with
  | none =>
    cases rest with
    | nil => rfl
    | cons c rest =>
      have hc : c ≠ '.' := (hr c rfl).2
      simp only [readFraction, List.nil_append]
      split
      · next heq => exact absurd (List.cons.inj heq).1 hc
      · rfl
  | @some cs h =>
    have hs := readSome_takesAll _ cs rest (offset + 1) ⟨h, rfl⟩ fun c hc ↦ (hr c hc).1
    simp only [readFraction, List.cons_append, hs, bind, Except.bind, pure, Except.pure,
      List.length_cons]
    rw [Nat.add_assoc, Nat.add_comm 1]

theorem readExponent_takes : Takes Exponent readExponent := by
  intro c exponent c' h
  simp only [readExponent] at h
  split at h
  · next e rest hc =>
    split at h
    · next he =>
      obtain ⟨⟨ds, c₁⟩, hs, h⟩ := bind_eq_ok.1 h
      cases h
      obtain ⟨cs, hrest, hcs, rfl⟩ := readSome_takes _ _ _ hs
      -- What stands between the letter and the digits is a sign or nothing.
      split at hrest
      · refine ⟨e :: ['+'] ++ cs, ?_, .some he .plus hcs⟩
        dsimp only at hrest ⊢
        rw [hc, hrest]
        simp
      · refine ⟨e :: ['-'] ++ cs, ?_, .some he .minus hcs⟩
        dsimp only at hrest ⊢
        rw [hc, hrest]
        simp
      · refine ⟨e :: [] ++ cs, ?_, .some he .none hcs⟩
        dsimp only at hrest ⊢
        rw [hc, hrest]
        simp
    · cases h
      exact ⟨[], rfl, .none⟩
  · cases h
    exact ⟨[], rfl, .none⟩

theorem readExponent_takesAll : TakesAll Exponent Ends readExponent := by
  intro exponent cs rest offset h hr
  cases h with
  | none =>
    cases rest with
    | nil => rfl
    | cons c rest =>
      obtain ⟨-, -, he, hE⟩ := hr c rfl
      simp only [readExponent, List.nil_append, he, hE, or_self, if_false]
      rfl
  | @some e down sign cs he hs h =>
    have hdigits : ∀ offset, readSome ⟨cs ++ rest, offset⟩ =
        .ok (digitValues cs, ⟨rest, offset + cs.length⟩) := by
      intro offset
      exact readSome_takesAll _ cs rest offset ⟨h, rfl⟩ fun c hc ↦ (hr c hc).1
    simp only [readExponent, List.cons_append, List.append_assoc, if_pos he]
    cases hs with
    | plus =>
      simp only [List.cons_append, List.nil_append, hdigits, bind, Except.bind, pure, Except.pure,
        List.length_cons]
      congr 3
      omega
    | minus =>
      simp only [List.cons_append, List.nil_append, hdigits, bind, Except.bind, pure, Except.pure,
        List.length_cons]
      congr 3
      omega
    | none =>
      obtain ⟨hne, hcs⟩ := h
      cases cs with
      | nil => exact absurd rfl hne
      | cons d cs =>
        have hd : d.isDigit := hcs d List.mem_cons_self
        have hplus : d ≠ '+' := fun h ↦ absurd (h ▸ hd) (by decide)
        have hminus : d ≠ '-' := fun h ↦ absurd (h ▸ hd) (by decide)
        rw [List.cons_append] at hdigits
        simp only [List.cons_append, List.nil_append]
        split
        · next heq => exact absurd (List.cons.inj heq).1 hplus
        · next heq => exact absurd (List.cons.inj heq).1 hminus
        · simp only [hdigits, bind, Except.bind, pure, Except.pure, List.length_cons]
          congr 3
          omega

theorem read_takes : Takes Spells read := by
  intro c n c' h
  simp only [read] at h
  obtain ⟨⟨whole, c₁⟩, hwhole, h⟩ := bind_eq_ok.1 h
  obtain ⟨⟨fraction, c₂⟩, hfraction, h⟩ := bind_eq_ok.1 h
  obtain ⟨⟨exponent, c₃⟩, hexponent, h⟩ := bind_eq_ok.1 h
  cases h
  obtain ⟨w, hw, whole⟩ := readWhole_takes _ _ _ hwhole
  obtain ⟨f, hf, fraction⟩ := readFraction_takes _ _ _ hfraction
  obtain ⟨e, he, exponent⟩ := readExponent_takes _ _ _ hexponent
  dsimp only at hf he
  rw [hf, he] at hw
  split at hw
  · next rest hc =>
    refine ⟨['-'] ++ (w ++ (f ++ e)), ?_, .mk .minus whole fraction exponent⟩
    dsimp only at hw ⊢
    rw [hc, hw]
    simp
  · refine ⟨[] ++ (w ++ (f ++ e)), ?_, .mk .plus whole fraction exponent⟩
    dsimp only at hw ⊢
    rw [hw]
    simp

theorem Whole.ne_nil {ds : List Nat} {cs : List Char} (h : Whole ds cs) : cs ≠ [] := by
  cases h with
  | zero => exact List.cons_ne_nil _ _
  | digits h => exact h.1

theorem Whole.isDigit {ds : List Nat} {cs : List Char} (h : Whole ds cs) :
    ∀ c ∈ cs.head?, c.isDigit := by
  intro c hc
  cases h with
  | zero => cases hc; rfl
  | digits h => exact h.2 c (List.mem_of_mem_head? hc)

theorem Exponent.head {exponent : Option (Bool × List Nat)} {cs rest : List Char}
    (h : Exponent exponent cs) (hr : Ends rest) :
    ∀ c ∈ (cs ++ rest).head?, c.isDigit = false ∧ c ≠ '.' := by
  intro c hc
  cases h with
  | none => exact ⟨(hr c hc).1, (hr c hc).2.1⟩
  | some he =>
    cases hc
    rcases he with rfl | rfl <;> decide

theorem Fraction.head {fraction : Option (List Nat)} {cs rest : List Char}
    (h : Fraction fraction cs) (hr : ∀ c ∈ rest.head?, c.isDigit = false) :
    ∀ c ∈ (cs ++ rest).head?, c.isDigit = false := by
  intro c hc
  cases h with
  | none => exact hr c hc
  | some =>
    cases hc
    rfl

theorem read_takesAll : TakesAll Spells Ends read := by
  intro n cs rest offset h hr
  obtain ⟨hs, hw, hf, he⟩ := h
  next negative whole fraction exponent s w f e =>
  have hstop := he.head hr
  have hwhole := readWhole_takesAll whole w (f ++ (e ++ rest)) (offset + s.length) hw
    (hf.head fun c hc ↦ (hstop c hc).1)
  have hfraction := readFraction_takesAll fraction f (e ++ rest) (offset + s.length + w.length) hf
    hstop
  have hexponent := readExponent_takesAll exponent e rest
    (offset + s.length + w.length + f.length) he hr
  cases hs with
  | plus =>
    have hminus : ∀ rest', w ++ (f ++ (e ++ rest)) ≠ '-' :: rest' := by
      intro rest' heq
      cases w with
      | nil => exact hw.ne_nil rfl
      | cons d w =>
        have hd : d.isDigit := hw.isDigit d rfl
        rw [(List.cons.inj heq).1] at hd
        exact absurd hd (by decide)
    simp only [List.length_nil, Nat.add_zero] at hwhole hfraction hexponent
    simp only [read, List.nil_append, List.append_assoc, hwhole, hfraction, hexponent, bind,
      Except.bind, pure, Except.pure, List.length_append]
    congr 3
    omega
  | minus =>
    simp only [List.length_cons, List.length_nil, Nat.zero_add] at hwhole hfraction hexponent
    simp only [read, List.cons_append, List.nil_append, List.append_assoc, hwhole, hfraction,
      hexponent, bind, Except.bind, pure, Except.pure, List.length_cons, List.length_append]
    congr 3
    omega

theorem Digits.bound {cs : List Char} (h : Digits cs) : ∀ c ∈ cs, 32 ≤ c.toNat := by
  intro c hc
  have hd : 48 ≤ c.toNat := (Char.isDigit_iff_toNat.1 (h.2 c hc)).1
  omega

theorem Spells.bound {n : Numeral} {cs : List Char} (h : n.Spells cs) : ∀ c ∈ cs, 32 ≤ c.toNat := by
  obtain ⟨hs, hw, hf, he⟩ := h
  intro c hc
  rcases List.mem_append.1 hc with hc | hc
  · cases hs with
    | plus => cases hc
    | minus => simp_all
  rcases List.mem_append.1 hc with hc | hc
  · cases hw with
    | zero => simp_all
    | digits h => exact Digits.bound h c hc
  rcases List.mem_append.1 hc with hc | hc
  · cases hf with
    | none => cases hc
    | some h =>
      rcases List.mem_cons.1 hc with rfl | hc
      · decide
      · exact Digits.bound h c hc
  · cases he with
    | none => cases hc
    | some he hs h =>
      rw [List.cons_append] at hc
      rcases List.mem_cons.1 hc with rfl | hc
      · rcases he with rfl | rfl <;> decide
      rcases List.mem_append.1 hc with hc | hc
      · cases hs with
        | none => cases hc
        | plus | minus => simp_all
      · exact Digits.bound h c hc

theorem Spells.head {n : Numeral} {cs : List Char} (h : n.Spells cs) :
    ∃ c rest, cs = c :: rest ∧ (c = '-' ∨ c.isDigit) := by
  obtain ⟨hs, hw, -, -⟩ := h
  cases hs with
  | minus => exact ⟨'-', _, rfl, .inl rfl⟩
  | plus =>
    next w _ _ =>
    cases w with
    | nil => exact absurd rfl hw.ne_nil
    | cons d w => exact ⟨d, _, rfl, .inr (hw.isDigit d rfl)⟩

end Numeral

end ColumnFunctions.Json
