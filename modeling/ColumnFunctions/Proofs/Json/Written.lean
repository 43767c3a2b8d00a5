import ColumnFunctions.Json.Value
import ColumnFunctions.Proofs.Json.Completeness

namespace ColumnFunctions.Json

namespace Numeral

theorem le_foldl_digits (ds : List Nat) (acc : Nat) :
    acc ≤ ds.foldl (fun acc d ↦ acc * 10 + d) acc := by
  induction ds generalizing acc with
  | nil => exact Nat.le_refl acc
  | cons d ds ih =>
    have h := ih (acc * 10 + d)
    rw [List.foldl_cons]
    omega

theorem gather_eq {limit acc : Nat} {ds : List Nat}
    (h : ds.foldl (fun acc d ↦ acc * 10 + d) acc ≤ limit) :
    gather limit acc ds = (ds.foldl (fun acc d ↦ acc * 10 + d) acc, []) := by
  induction ds generalizing acc with
  | nil => rfl
  | cons d ds ih =>
    rw [List.foldl_cons] at h ⊢
    have hle := le_foldl_digits ds (acc * 10 + d)
    rw [gather, if_neg (by omega), ih h]

theorem digits_toDigits (n : Nat) : Digits (Nat.toDigits 10 n) :=
  ⟨Nat.toDigits_ne_nil, fun _ hc ↦ Nat.isDigit_of_mem_toDigits (by decide) (by decide) hc⟩

theorem foldl_digitValues (n : Nat) :
    (digitValues (Nat.toDigits 10 n)).foldl (fun acc d ↦ acc * 10 + d) 0 = n := by
  have h : Nat.ofDigitChars 10 (Nat.toDigits 10 n) 0 = n := Nat.ofDigitChars_ten_toDigits
  rw [Nat.ofDigitChars_eq_foldl] at h
  simp only [Nat.mul_comm 10] at h
  rw [digitValues, List.foldl_map]
  exact h

theorem head_toDigits {n : Nat} (h : n ≠ 0) : (Nat.toDigits 10 n).head? ≠ some '0' := by
  induction n using Nat.strongRecOn with
  | ind n ih =>
    by_cases hn : n < 10
    · rw [Nat.toDigits_of_lt_base hn]
      revert h
      have hall : ∀ m < 10, m ≠ 0 → [Nat.digitChar m].head? ≠ some '0' := by decide
      exact hall n hn
    · have hdiv := ih (n / 10) (by omega) (by omega)
      rw [Nat.toDigits_of_base_le (by decide) (Nat.not_lt.1 hn)]
      cases hd : Nat.toDigits 10 (n / 10) with
      | nil => exact absurd hd Nat.toDigits_ne_nil
      | cons d ds => rwa [hd] at hdiv

theorem whole_toDigits (n : Nat) : Whole (digitValues (Nat.toDigits 10 n)) (Nat.toDigits 10 n) := by
  by_cases h : n = 0
  · subst h
    exact .zero
  · exact .digits (digits_toDigits n) (head_toDigits h)

def ofInt : Int → Numeral
  | .ofNat m => ⟨false, digitValues (Nat.toDigits 10 m), none, none⟩
  | .negSucc m => ⟨true, digitValues (Nat.toDigits 10 (m + 1)), none, none⟩

theorem toString_spells (n : Int) : (ofInt n).Spells (toString n).toList := by
  cases n with
  | ofNat m =>
    have htext : (toString (Int.ofNat m)).toList = [] ++ (Nat.toDigits 10 m ++ ([] ++ [])) := by
      rw [List.append_nil, List.append_nil, List.nil_append]
      exact Nat.toList_repr
    rw [htext]
    exact .mk .plus (whole_toDigits m) .none .none
  | negSucc m =>
    have htext : (toString (Int.negSucc m)).toList =
        ['-'] ++ (Nat.toDigits 10 (m + 1) ++ ([] ++ [])) := by
      rw [List.append_nil, List.append_nil, ← Nat.toList_repr]
      exact String.toList_append
    rw [htext]
    exact .mk .minus (whole_toDigits (m + 1)) .none .none

theorem value_toDigits {m : Nat} (negative : Bool) (h : m ≤ maxSignificand) :
    value ⟨negative, digitValues (Nat.toDigits 10 m), none, none⟩ =
      if ¬ negative then .ok (.whole m)
      else if 1 ≤ m ∧ m ≤ 1 <<< 63 then .ok (.whole (-m))
      else .ok (.double (.ofNat true m)) := by
  have hdigits := foldl_digitValues m
  have hgather : gather maxSignificand 0 (digitValues (Nat.toDigits 10 m)) = (m, []) := by
    rw [gather_eq (by rw [hdigits]; exact h), hdigits]
  simp [value, significand, isWhole, hgather]

theorem value_ofInt {n : Int} (hl : Int64.minValue.toInt ≤ n) (hu : n < UInt64.size) :
    (ofInt n).value = .ok (.whole n) := by
  have hmin : Int64.minValue.toInt = -9223372036854775808 := by decide
  have hsize : UInt64.size = 18446744073709551616 := rfl
  have hmax : maxSignificand = UInt64.size - 1 := rfl
  cases n with
  | ofNat m =>
    have hm : (m : Int) < UInt64.size := hu
    rw [ofInt, value_toDigits false (by omega)]
    rfl
  | negSucc m =>
    have hm : 1 ≤ m + 1 ∧ m + 1 ≤ 1 <<< 63 := ⟨by omega, by omega⟩
    rw [ofInt, value_toDigits true (by omega), if_neg (by decide), if_pos hm]
    rfl

end Numeral

def Number.Exact : Number → Prop
  | .whole n => Int64.minValue.toInt ≤ n ∧ n < UInt64.size
  | .double _ => False

/-- A text spells no more than one tree. -/
theorem SpellsText.unique {t t' : Tree} {cs : List Char} (h : SpellsText t cs)
    (h' : SpellsText t' cs) : t = t' := by
  rw [← String.toList_ofList (l := cs), spellsText_iff] at h h'
  exact Option.some.inj (h.1.symm.trans h'.1)

section Reading

variable {α : Type} {t : Tree} {x : α}

theorem eq_ok_of_tree? {read : Node → Except Complaint α} (h : ByTree read) {n : Node}
    (ht : n.tree? = some t) : read n = .ok x ↔ (read t.node).toOption = some x := by
  rw [← toOption_eq_some, h n, ht, Option.bind_some]

theorem readDocument_eq_ok_of_spells {read : Nat → Node → Except Complaint α}
    (h : ByTree (read maxDepth)) {text : String} (ht : SpellsText t text.toList) :
    readDocument read text = .ok x ↔ (read maxDepth t.node).toOption = some x := by
  rw [readDocument_eq_ok h, toOption_eq_some]
  constructor
  · rintro ⟨t', ht', hx⟩
    rwa [ht.unique ht']
  · exact fun hx ↦ ⟨t, ht, hx⟩

end Reading

namespace Value

mutual

def Exact : Value → Prop
  | .null | .bool _ | .string _ => True
  | .number n => n.Exact
  | .list vs => ExactAll vs
  | .object ms => ExactMembers ms

def ExactAll : List Value → Prop
  | [] => True
  | v :: vs => v.Exact ∧ ExactAll vs

def ExactMembers : List (String × Value) → Prop
  | [] => True
  | (_, v) :: ms => v.Exact ∧ ExactMembers ms

def tree : Value → Tree
  | .null => .null
  | .bool b => .bool b
  | .number n => .number (some n)
  | .string s => .string (some s)
  | .list vs => .list (trees vs)
  | .object ms => .object (memberTrees ms)

def trees : List Value → List Tree
  | [] => []
  | v :: vs => v.tree :: trees vs

def memberTrees : List (String × Value) → List (Option String × Tree)
  | [] => []
  | (key, v) :: ms => (some key, v.tree) :: memberTrees ms

end

def continued (css : List (List Char)) : List Char := css.flatMap (',' :: ·)

theorem separated_cons (cs : List Char) (css : List (List Char)) :
    separated (cs :: css) = cs ++ continued css := by
  induction css generalizing cs with
  | nil => rw [separated, continued, List.flatMap_nil, List.append_nil]
  | cons d css ih =>
    rw [separated, ih]
    · rfl
    · exact fun h ↦ nomatch h

mutual

theorem spells : ∀ v : Value, v.Exact → Spells v.tree v.chars
  | .null, _ => .null
  | .bool true, _ => .isTrue
  | .bool false, _ => .isFalse
  | .number (.whole n), h => by
    have hs := Spells.number (Numeral.toString_spells n)
    rwa [Numeral.value_ofInt h.1 h.2] at hs
  | .string s, _ => .string (Quoted.writeChars_spells s)
  | .list vs, h => by
    rw [chars, tree, List.cons_append]
    cases vs with
    | nil => exact .list (.close blanks_nil)
    | cons v vs =>
      have hs := SpellsElements.cons (.first blanks_nil) (spells v h.1) (spells_elements vs h.2)
      rw [elementChars, separated_cons, List.append_assoc]
      exact .list hs
  | .object ms, h => by
    rw [chars, tree, List.cons_append]
    cases ms with
    | nil => exact .object (.close blanks_nil)
    | cons member ms =>
      obtain ⟨key, v⟩ := member
      have hs := SpellsMembers.cons (.first blanks_nil) (Quoted.writeChars_spells key) blanks_nil
        blanks_nil (spells v h.1) (spells_members ms h.2)
      rw [memberChars, separated_cons, List.append_assoc, List.append_assoc]
      exact .object hs

theorem spells_elements : ∀ vs : List Value, ExactAll vs →
    SpellsElements false (trees vs) (continued (elementChars vs) ++ [']'])
  | [], _ => .close blanks_nil
  | v :: vs, h => by
    have hs := SpellsElements.cons (.next blanks_nil blanks_nil) (spells v h.1)
      (spells_elements vs h.2)
    rw [elementChars, continued, List.flatMap_cons, List.append_assoc]
    exact hs

theorem spells_members : ∀ ms : List (String × Value), ExactMembers ms →
    SpellsMembers false (memberTrees ms) (continued (memberChars ms) ++ ['\x7d'])
  | [], _ => .close blanks_nil
  | (key, v) :: ms, h => by
    have hs := SpellsMembers.cons (.next blanks_nil blanks_nil) (Quoted.writeChars_spells key)
      blanks_nil blanks_nil (spells v h.1) (spells_members ms h.2)
    rw [memberChars, continued, List.flatMap_cons, List.append_assoc, List.cons_append,
      List.append_assoc]
    exact hs

end

theorem spellsText {v : Value} (h : v.Exact) : SpellsText v.tree v.text.toList := by
  have hs := SpellsText.mk blanks_nil blanks_nil (spells v h)
  rw [List.append_nil, List.nil_append] at hs
  rwa [text, String.toList_ofList]

/-- A reader makes of the text of a value what it makes of the tree of the value. -/
theorem readDocument_text {α : Type} {read : Nat → Node → Except Complaint α}
    (hread : ByTree (read maxDepth)) {v : Value} (h : v.Exact) (x : α) :
    readDocument read v.text = .ok x ↔ read maxDepth v.tree.node = .ok x := by
  rw [readDocument_eq_ok_of_spells hread (spellsText h), toOption_eq_some]

mutual

theorem bound : ∀ v : Value, v.Exact → ∀ c ∈ v.chars, 32 ≤ c.toNat
  | .null, _ | .bool true, _ | .bool false, _ => by simp [chars]
  | .number (.whole n), _ => (Numeral.toString_spells n).bound
  | .string s, _ => (Quoted.writeChars_spells s).bound
  | .list vs, h => by
    rw [chars, List.cons_append, List.forall_mem_cons]
    refine ⟨by decide, ?_⟩
    cases vs with
    | nil => simp [elementChars, separated]
    | cons v vs =>
      rw [elementChars, separated_cons, List.append_assoc, List.forall_mem_append]
      exact ⟨bound v h.1, bound_elements vs h.2⟩
  | .object ms, h => by
    rw [chars, List.cons_append, List.forall_mem_cons]
    refine ⟨by decide, ?_⟩
    cases ms with
    | nil => simp [memberChars, separated]
    | cons member ms =>
      obtain ⟨key, v⟩ := member
      rw [memberChars, separated_cons, List.append_assoc, List.append_assoc, List.cons_append,
        List.forall_mem_append, List.forall_mem_cons, List.forall_mem_append]
      exact ⟨(Quoted.writeChars_spells key).bound, by decide, bound v h.1, bound_members ms h.2⟩

theorem bound_elements : ∀ vs : List Value, ExactAll vs →
    ∀ c ∈ continued (elementChars vs) ++ [']'], 32 ≤ c.toNat
  | [], _ => by simp [elementChars, continued]
  | v :: vs, h => by
    rw [elementChars, continued, List.flatMap_cons, List.append_assoc, List.cons_append,
      List.forall_mem_cons, List.forall_mem_append]
    exact ⟨by decide, bound v h.1, bound_elements vs h.2⟩

theorem bound_members : ∀ ms : List (String × Value), ExactMembers ms →
    ∀ c ∈ continued (memberChars ms) ++ ['\x7d'], 32 ≤ c.toNat
  | [], _ => by simp [memberChars, continued]
  | (key, v) :: ms, h => by
    rw [memberChars, continued, List.flatMap_cons, List.append_assoc, List.cons_append,
      List.append_assoc, List.cons_append, List.forall_mem_cons, List.forall_mem_append,
      List.forall_mem_cons, List.forall_mem_append]
    exact ⟨by decide, (Quoted.writeChars_spells key).bound, by decide, bound v h.1,
      bound_members ms h.2⟩

end

theorem ne_break {v : Value} (h : v.Exact) : ∀ c ∈ v.text.toList, c ≠ '\r' ∧ c ≠ '\n' := by
  intro c hc
  rw [text, String.toList_ofList] at hc
  have hbound := bound v h c hc
  constructor
  · rintro rfl
    exact absurd hbound (by decide)
  · rintro rfl
    exact absurd hbound (by decide)

end Value

end ColumnFunctions.Json
