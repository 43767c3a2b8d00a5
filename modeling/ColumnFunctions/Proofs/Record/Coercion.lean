import ColumnFunctions.Proofs.Record.Layout
import ColumnFunctions.Proofs.Text.Integer
import Mathlib.Algebra.Group.Int.Defs

namespace ColumnFunctions

open Json Text

namespace Binary64

variable {n : ℕ} (hl : 2 ^ 63 ≤ n) (hu : n < 2 ^ 64)

include hl hu

theorem exponentOf_word : exponentOf n 1 = 11 := by
  have hlog : n.log2 = 63 := (Nat.log2_eq_iff (by omega)).2 ⟨hl, hu⟩
  have hstart : (n.log2 : ℤ) - (Nat.log2 1 : ℤ) - 53 = 10 := by
    have hone : Nat.log2 1 = 0 := by decide
    rw [hlog, hone]
    rfl
  have hquotient : 1 <<< 53 ≤ n / 1 <<< 10 := by
    simp only [Nat.shiftLeft_eq]
    omega
  have hshifted : shifted n 1 10 = (n, 1 <<< 10) := rfl
  simp only [exponentOf, hstart, hshifted, if_pos hquotient]
  rfl

theorem le_truncated_ofNat : 1 <<< 63 ≤ (ofNat false n).truncated := by
  have hne : n ≠ 0 := by omega
  have hmantissa : 2 ^ 52 ≤ roundDiv n (1 <<< 11) := by
    simp only [roundDiv, Nat.shiftLeft_eq]
    split <;> omega
  have hshifted : shifted n 1 11 = (n, 1 <<< 11) := rfl
  simp only [ofNat, ofRatio?, if_neg hne, exponentOf_word hl hu, hshifted]
  -- Rounding up may give the next power of two, which has a mantissa of its own.
  by_cases h : roundDiv n (1 <<< 11) = 1 <<< 53
  · simp only [if_pos h]
    decide
  · have hrange : ¬ maxExponent < 11 := by decide
    have hexponent : (0 : ℤ) ≤ 11 := by decide
    simp only [if_neg h, if_neg hrange, Option.getD_some, truncated, if_pos hexponent]
    have hshift : (11 : ℤ).toNat = 11 := rfl
    rw [hshift, Nat.shiftLeft_eq, Nat.shiftLeft_eq]
    omega

end Binary64

namespace Width

variable (w : Width) {s : String} {n : ℤ}

theorem fits_long {w : Width} (h : w.Fits n) : long.Fits n := by
  cases w with
  | long => exact h
  | short => exact ⟨Int.le_trans (by decide) h.1, Int.le_trans h.2 (by decide)⟩

theorem fits_zero : w.Fits 0 := by
  cases w <;> exact ⟨by decide, by decide⟩

theorem read?_of_ok {s : Scalar} (h : s.toInteger = .ok n) :
    w.read? s = if w.Fits n then some n else none := by
  rw [read?, h, toOption_ok, Option.filter_some]
  simp only [decide_eq_true_eq]

theorem read?_blank (h : AllBlank s.toList) : w.read? (.text s) = some 0 := by
  have hzero : (Scalar.text s).toInteger = .ok 0 := by
    simp only [Scalar.toInteger, trimChars_eq_nil.2 h, if_true]
  rw [w.read?_of_ok hzero, if_pos w.fits_zero]

theorem read?_denotes (h : Denotes s n) :
    w.read? (.text s) = if w.Fits n then some n else none := by
  have hsigned := denotes_iff.1 h
  have hne : trimChars s.toList ≠ [] := (intOfSigned?_eq_some.1 hsigned).ne_nil
  have htext : (Scalar.text s).toInteger =
      if Scalar.isLong n then .ok n else .error (.invalidInteger s) := by
    simp only [Scalar.toInteger, if_neg hne, hsigned]
  by_cases hlong : long.Fits n
  · have htrue : Scalar.isLong n = true := decide_eq_true hlong
    rw [if_pos htrue] at htext
    exact w.read?_of_ok htext
  · have hfalse : Scalar.isLong n = false := decide_eq_false hlong
    rw [if_neg fun hfits ↦ hlong (fits_long hfits), read?, htext, hfalse]
    rfl

theorem read?_other (hb : ¬ AllBlank s.toList) (h : ∀ n, ¬ Denotes s n) :
    w.read? (.text s) = none := by
  have hne : trimChars s.toList ≠ [] := fun hnil ↦ hb (trimChars_eq_nil.1 hnil)
  have hsigned : intOfSigned? (trimChars s.toList) = none := by
    rw [Option.eq_none_iff_forall_ne_some]
    exact fun n hn ↦ h n (denotes_iff.2 hn)
  simp only [read?, Scalar.toInteger, if_neg hne, hsigned]
  rfl

theorem read?_double {x : Binary64} (h : 1 <<< 63 ≤ x.truncated) : w.read? (.double x) = none := by
  rw [read?, Scalar.toInteger, if_neg (Nat.not_lt.2 h)]
  rfl

end Width

namespace Kind

variable {w : Width} {name : String} {n : ℤ}

theorem enter_string (s : String) :
    ((integer w).column name).enter (.string (some s)) = (w.read? (.text s)).map .ofInt :=
  rfl

theorem enter_whole (hl : -2 ^ 63 ≤ n) (hu : n < 2 ^ 64) :
    ((integer w).column name).enter (.number (some (.whole n))) =
      ((integer w).column name).enter (.string (some (toString n))) := by
  have hmax : Int64.maxValue.toInt = 9223372036854775807 := by decide
  have hmin : Int64.minValue.toInt = -9223372036854775808 := by decide
  rw [enter_string, w.read?_denotes (denotes_toString n), column]
  simp only [Scalar.ofTree?]
  by_cases hn : n ≤ Int64.maxValue.toInt
  · have hscalar : Scalar.ofValue? (.number (.whole n)) = some (.integer n) := if_pos hn
    rw [hscalar, Option.map_some, Option.bind_some, enter, w.read?_of_ok rfl]
  · have hscalar : Scalar.ofValue? (.number (.whole n)) =
        some (.double (.ofNat false n.toNat)) := if_neg hn
    have hfits : ¬ w.Fits n := fun h ↦ hn (Width.fits_long h).2
    have hlarge := Binary64.le_truncated_ofNat (n := n.toNat) (by omega) (by omega)
    rw [hscalar, Option.map_some, Option.bind_some, enter, w.read?_double hlarge, if_neg hfits]

theorem enter_text_whole :
    (text.column name).enter (.number (some (.whole n))) =
      some (.string
        (if n < 2 ^ 63 then toString n else (Binary64.ofNat false n.toNat).plainText)) := by
  have hmax : Int64.maxValue.toInt = 9223372036854775807 := by decide
  have hiff : n ≤ Int64.maxValue.toInt ↔ n < 2 ^ 63 := by omega
  simp only [column, Scalar.ofTree?, Scalar.ofValue?, hiff]
  split <;> rfl

end Kind

def ReadsNull {α : Type} (read : Tree → Option α) (layout : Layout) (name : String) : Prop :=
  ∀ pre post, (∃ x, read (withMember pre post name .null) = some x) ↔
    Legible layout.names [] (pre ++ (some name, .null) :: post) ∧
      ∀ field ∈ layout, ∀ t, (some field.1, t) ∈ pre ++ post →
        ∃ v, (field.2.column field.1).enter t = some v

/-- What an integer field makes of the values it may hold. It may be left out where `rest` holds of
the other members. -/
structure IntegerField {α : Type} (read : Tree → Option α) (toValue : α → Value) (layout : Layout)
    (name : String) (w : Width) (rest : List (Option String × Tree) → Prop) : Prop where
  null : ReadsNull read layout name
  zero : ∀ {pre post x}, read (withMember pre post name .null) = some x →
    ∃ members, toValue x = .object members ∧ (name, .ofInt 0) ∈ members
  denoted : ∀ {pre post s n}, Denotes s n → w.Fits n → ∀ x,
    read (withMember pre post name (.string (some s))) = some x ↔
      ∃ x', read (withMember pre post name .null) = some x' ∧
        WrittenWith toValue name (.ofInt n) x' x
  outside : ∀ {pre post s n}, Denotes s n → ¬ w.Fits n →
    read (withMember pre post name (.string (some s))) = none
  number : ∀ {pre post n}, -2 ^ 63 ≤ n → n < 2 ^ 64 →
    read (withMember pre post name (.number (some (.whole n)))) =
      read (withMember pre post name (.string (some (toString n))))
  blank : ∀ {pre post s}, AllBlank s.toList →
    read (withMember pre post name (.string (some s))) = read (withMember pre post name .null)
  absent : ∀ {pre post}, some name ∉ (pre ++ post).map Prod.fst → rest (pre ++ post) →
    read (.object (pre ++ post)) = read (withMember pre post name .null)
  other : ∀ {pre post s}, ¬ AllBlank s.toList → (∀ n, ¬ Denotes s n) →
    read (withMember pre post name (.string (some s))) = none
  truth : ∀ {pre post b}, read (withMember pre post name (.bool b)) = none

/-- What a field of text makes of a whole number. -/
structure TextField {α : Type} (read : Tree → Option α) (toValue : α → Value) (layout : Layout)
    (name : String) (n : ℤ) : Prop where
  null : ReadsNull read layout name
  digits : n < 2 ^ 63 → ∀ {pre post} x,
    read (withMember pre post name (.number (some (.whole n)))) = some x ↔
      ∃ x', read (withMember pre post name .null) = some x' ∧
        WrittenWith toValue name (.string (toString n)) x' x
  distinct : ∀ m, n < 2 ^ 63 → m < 2 ^ 63 → ∀ {pre post} (x : α),
    read (withMember pre post name (.number (some (.whole n)))) = some x →
    read (withMember pre post name (.number (some (.whole m)))) = some x → n = m
  rounded : 2 ^ 63 ≤ n → ∀ {pre post} x,
    read (withMember pre post name (.number (some (.whole n)))) = some x ↔
      ∃ x', read (withMember pre post name .null) = some x' ∧
        WrittenWith toValue name (.string (Binary64.ofNat false n.toNat).plainText) x' x

structure ReadsTrees {α : Type} (read : (room : ℕ) → Node → Except Complaint α) : Prop where
  node : ∀ {room n t}, n.tree? = some t →
    ∀ x, read room n = .ok x ↔ (read room t.node).toOption = some x
  text : ∀ {text t}, SpellsText t text.toList →
    ∀ x, readDocument read text = .ok x ↔ (read maxDepth t.node).toOption = some x

namespace Rows

variable {α : Type} {read : (room : ℕ) → Node → Except Complaint α} {toValue : α → Value}
  {layout : Layout} {needed : Bool} {view : α → List Value}
  (h : Rows read toValue layout needed view) {j : ℕ} {name : String}

include h

theorem readsTrees : ReadsTrees read where
  node ht _ := eq_ok_of_tree? (h.byTree _) ht
  text ht _ := readDocument_eq_ok_of_spells (h.byTree maxDepth) ht

theorem textField (hj : layout[j]? = some (name, .text)) (n : ℤ) (room : ℕ) :
    TextField (fun t ↦ (read (room + 1) t.node).toOption) toValue layout name n := by
  have hdigits : ∀ m : ℤ, m < 2 ^ 63 → ∀ {pre post} x,
      (read (room + 1) (withMember pre post name (.number (some (.whole m)))).node).toOption =
        some x ↔ ∃ x', (read (room + 1) (withMember pre post name .null).node).toOption = some x' ∧
          WrittenWith toValue name (.string (toString m)) x' x := by
    intro m hm pre post x
    refine h.read_member_some hj ?_
    rw [Kind.enter_text_whole, if_pos hm]
  refine ⟨fun pre post ↦ h.exists_read_null hj, hdigits n, ?_, ?_⟩
  · intro m hn hm pre post x hx hx'
    obtain ⟨y, hy, members, hy', -, hwritten⟩ := (hdigits n hn x).1 hx
    obtain ⟨z, hz, members', hz', -, hwritten'⟩ := (hdigits m hm x).1 hx'
    obtain rfl : y = z := Option.some.inj (hy.symm.trans hz)
    obtain rfl : members = members' := Value.object.inj (hy'.symm.trans hz')
    have hput := put_injective name members (Value.object.inj (hwritten.symm.trans hwritten'))
    exact toString_injective (Value.string.inj hput)
  · intro hn pre post x
    refine h.read_member_some hj ?_
    rw [Kind.enter_text_whole, if_neg (Int.not_lt.2 hn)]

theorem integerField {w : Width} {rest : List (Option String × Tree) → Prop}
    (hj : layout[j]? = some (name, .integer w))
    (hrest : ∀ ms, rest ms → needed → AnyNamed layout.names ms) (room : ℕ) :
    IntegerField (fun t ↦ (read (room + 1) t.node).toOption) toValue layout name w rest where
  null pre post := h.exists_read_null hj
  zero hx := by
    obtain ⟨-, -, members, -, -, hwritten⟩ := (h.read_member_some hj rfl).1 hx
    exact ⟨_, hwritten, mem_put name _ members⟩
  denoted hs hn x := by
    refine h.read_member_some hj ?_
    rw [Kind.enter_string, w.read?_denotes hs, if_pos hn, Option.map_some]
  outside hs hn := by
    refine h.read_member_none hj ?_
    rw [Kind.enter_string, w.read?_denotes hs, if_neg hn, Option.map_none]
  number hl hu := h.read_member_congr hj (Kind.enter_whole hl hu)
  blank hs := by
    refine h.read_member_congr hj ?_
    rw [Kind.enter_string, w.read?_blank hs, Kind.column_enter_null]
    rfl
  absent hname hms := h.read_member_absent hj hname (hrest _ hms)
  other hb hs := by
    refine h.read_member_none hj ?_
    rw [Kind.enter_string, w.read?_other hb hs, Option.map_none]
  truth := h.read_member_none hj rfl

end Rows

theorem spells_toString {n : ℤ} (hl : -2 ^ 63 ≤ n) (hu : n < 2 ^ 64) :
    Spells (.number (some (.whole n))) (toString n).toList := by
  have hmin : Int64.minValue.toInt = -9223372036854775808 := by decide
  have hsize : (UInt64.size : ℤ) = 18446744073709551616 := rfl
  have hs := Spells.number (Numeral.toString_spells n)
  rwa [Numeral.value_ofInt (by omega) (by omega)] at hs

theorem escaped_of_isDigit {c : Char} (h : c.isDigit) : Quoted.escaped c = [c] := by
  have hne : ∀ d : Char, d.isDigit = false → c ≠ d := by
    rintro d hd rfl
    rw [h] at hd
    cases hd
  have hrange : 48 ≤ c.toNat ∧ c.toNat ≤ 57 := Char.isDigit_iff_toNat.1 h
  have hcontrol : ¬ c.toNat < 32 := by omega
  rw [Quoted.escaped, if_neg (hne _ (by decide)), if_neg (hne _ (by decide)),
    if_neg (hne _ (by decide)), if_neg (hne _ (by decide)), if_neg (hne _ (by decide)),
    if_neg (hne _ (by decide)), if_neg (hne _ (by decide)), if_neg hcontrol]

theorem text_string_toString (n : ℤ) :
    (Value.string (toString n)).text = "\"" ++ toString n ++ "\"" := by
  have hescaped : (toString n).toList.flatMap Quoted.escaped = (toString n).toList := by
    have hchars : ∀ c ∈ (toString n).toList, Quoted.escaped c = [c] := by
      intro c hc
      rcases (signed_toString n).char c hc with hd | rfl | rfl
      · exact escaped_of_isDigit hd
      · rfl
      · rfl
    rw [List.flatMap_congr hchars, List.flatMap_singleton']
  rw [← String.toList_inj, Value.text, String.toList_ofList, Value.chars, Quoted.writeChars,
    hescaped, String.toList_append, String.toList_append]
  rfl

/-- An integer field reads an integer that fits it alike from a number and from a text, exactly, and
no other: with any zeros before its digits, and a sign or none, and blanks around. It reads zero
from blanks, from null and where it is left out. -/
theorem integer_fields :
    (∀ room, IntegerField (fun t ↦ (EventRecord.ofNode (room + 1) t.node).toOption)
      EventRecord.toValue EventRecord.layout "timestamp" .long fun _ ↦ True) ∧
    (∀ name ∈ ["screen_height", "screen_width", "zone_offset"], ∀ room,
      IntegerField (fun t ↦ (EventRecord.ofNode (room + 1) t.node).toOption)
        EventRecord.toValue EventRecord.layout name .short fun _ ↦ True) ∧
    (∀ room, IntegerField (fun t ↦ (UserAttribute.ofNode (room + 1) t.node).toOption)
      UserAttribute.toValue UserAttribute.layout "set_timestamp" .long
        fun ms ↦ some "value" ∈ ms.map Prod.fst) ∧
    ReadsTrees EventRecord.ofNode ∧ ReadsTrees UserAttribute.ofNode ∧
    (∀ n : ℤ, Denotes (toString n) n) ∧
    ∀ n : ℤ, -2 ^ 63 ≤ n → n < 2 ^ 64 → Spells (.number (some (.whole n))) (toString n).toList := by
  refine ⟨?_, ?_, ?_, EventRecord.rows.readsTrees, UserAttribute.rows.readsTrees, denotes_toString,
    fun n ↦ spells_toString⟩
  · have hj : EventRecord.layout[1]? = some ("timestamp", .integer .long) := rfl
    exact EventRecord.rows.integerField hj fun _ _ h ↦ nomatch h
  · have hj : ∀ name ∈ ["screen_height", "screen_width", "zone_offset"],
        ∃ j : ℕ, EventRecord.layout[j]? = some (name, .integer .short) := by
      simp only [List.forall_mem_cons, List.not_mem_nil, false_imp_iff, implies_true, and_true]
      exact ⟨⟨8, rfl⟩, ⟨9, rfl⟩, ⟨10, rfl⟩⟩
    intro name hname
    obtain ⟨j, hj⟩ := hj name hname
    exact EventRecord.rows.integerField hj fun _ _ h ↦ nomatch h
  · have hj : UserAttribute.layout[1]? = some ("set_timestamp", .integer .long) := rfl
    exact UserAttribute.rows.integerField hj fun ms hms _ ↦ ⟨"value", by decide, hms⟩

theorem integer_fields_limits :
    let event := fun (name : String) (v : Value) ↦
      readDocument EventRecord.ofNode (Value.object [(name, v)]).text
    let user := fun v : Value ↦
      readDocument UserAttribute.ofNode (Value.object [("value", .null), ("set_timestamp", v)]).text
    event "screen_height" (.string " +007\t") = .ok { screenHeight := 7 } ∧
      (∀ r, event "zone_offset" (.ofInt (2 ^ 31)) ≠ .ok r) ∧
      (∀ r, event "timestamp" (.ofInt (2 ^ 64 - 1)) ≠ .ok r) ∧
      user (.string "\n") = .ok ⟨none, 0⟩ ∧ ∀ a, user (.bool true) ≠ .ok a := by
  intro event user
  obtain ⟨htime, hshort, hset, hevents, husers, hdenotes, -⟩ := integer_fields
  have hevent : ∀ name v, v.Exact → ∀ r, event name v = .ok r ↔
      (EventRecord.ofNode (126 + 1) (withMember [] [] name v.tree).node).toOption = some r :=
    fun name v hv ↦ hevents.text (Value.spellsText (v := .object [(name, v)]) ⟨hv, trivial⟩)
  have huser : ∀ v, v.Exact → ∀ a, user v = .ok a ↔ (UserAttribute.ofNode (126 + 1)
      (withMember [(some "value", .null)] [] "set_timestamp" v.tree).node).toOption = some a :=
    fun v hv ↦ husers.text
      (Value.spellsText (v := .object [("value", .null), ("set_timestamp", v)])
        ⟨trivial, hv, trivial⟩)
  have hseven : Denotes " +007\t" 7 := denotes_iff.2 (by decide +kernel)
  have hblank : AllBlank "\n".toList := trimChars_eq_nil.1 (by decide +kernel)
  refine ⟨?_, ?_, ?_, ?_, ?_⟩
  · exact (hevent _ (.string " +007\t") trivial _).2 (((hshort _ (by simp) 126).denoted hseven
      ⟨by decide, by decide⟩ _).2 ⟨{}, by decide +kernel, _, rfl, by decide, rfl⟩)
  · intro r hr
    have hread := (hevent _ (.ofInt (2 ^ 31)) ⟨by decide, by decide⟩ r).1 hr
    have hfield := hshort "zone_offset" (by simp) 126
    exact nomatch hread.symm.trans ((hfield.number (by decide) (by decide)).trans
      (hfield.outside (hdenotes (2 ^ 31)) (by decide)))
  · intro r hr
    have hread := (hevent _ (.ofInt (2 ^ 64 - 1)) ⟨by decide, by decide⟩ r).1 hr
    exact nomatch hread.symm.trans (((htime 126).number (by decide) (by decide)).trans
      ((htime 126).outside (hdenotes (2 ^ 64 - 1)) (by decide)))
  · refine (huser (.string "\n") trivial _).2 (((hset 126).blank hblank).trans ?_)
    decide +kernel
  · intro a ha
    have hread := (huser (.bool true) trivial a).1 ha
    exact nomatch (hset 126).truth.symm.trans hread

/-- A number in a field of text is written with its digits, so that no two are written alike, unless
it is too large for 64 bits and a sign: then the digits are those of a double. -/
theorem text_fields (n : ℤ) (hl : -2 ^ 63 ≤ n) (hu : n < 2 ^ 64) :
    (∀ name, (name, Kind.text) ∈ EventRecord.layout → ∀ room,
      TextField (fun t ↦ (EventRecord.ofNode (room + 1) t.node).toOption) EventRecord.toValue
        EventRecord.layout name n) ∧
    (∀ room, TextField (fun t ↦ (UserAttribute.ofNode (room + 1) t.node).toOption)
      UserAttribute.toValue UserAttribute.layout "value" n) ∧
    ReadsTrees EventRecord.ofNode ∧ ReadsTrees UserAttribute.ofNode ∧
    Spells (.number (some (.whole n))) (toString n).toList ∧
    (Value.string (toString n)).text = "\"" ++ toString n ++ "\"" := by
  refine ⟨?_, ?_, EventRecord.rows.readsTrees, UserAttribute.rows.readsTrees,
    spells_toString hl hu, text_string_toString n⟩
  · intro name hname
    obtain ⟨j, hj⟩ := List.mem_iff_getElem?.1 hname
    exact EventRecord.rows.textField hj n
  · have hj : UserAttribute.layout[0]? = some ("value", .text) := rfl
    exact UserAttribute.rows.textField hj n

theorem text_fields_greatest :
    readDocument UserAttribute.ofNode (Value.object [("value", .ofInt (2 ^ 63 - 1))]).text =
      .ok ⟨some "9223372036854775807", 0⟩ := by
  obtain ⟨-, hvalue, -, husers, -⟩ := text_fields (2 ^ 63 - 1) (by decide) (by decide)
  have hspells : SpellsText (withMember [] [] "value" (.number (some (.whole (2 ^ 63 - 1)))))
      (Value.object [("value", .ofInt (2 ^ 63 - 1))]).text.toList :=
    Value.spellsText (v := .object [("value", .ofInt (2 ^ 63 - 1))])
      ⟨⟨by decide, by decide⟩, trivial⟩
  exact (husers.text hspells _).2 (((hvalue 126).digits (by decide) _).2
    ⟨⟨none, 0⟩, by decide +kernel, _, rfl, by decide, rfl⟩)

/-- The first two numbers beyond it, which are written alike, and not with the digits of either. -/
theorem text_fields_rounded :
    let read := fun n : ℤ ↦
      readDocument UserAttribute.ofNode ("\x7b\"value\":" ++ toString n ++ "\x7d")
    read (2 ^ 63) = .ok ⟨some "9223372036854776000", 0⟩ ∧
      read (2 ^ 63 + 1) = .ok ⟨some "9223372036854776000", 0⟩ ∧
      toString (2 ^ 63 : ℤ) = "9223372036854775808" := by
  refine ⟨toOption_eq_some.1 ?_, toOption_eq_some.1 ?_, ?_⟩
  all_goals decide +kernel

end ColumnFunctions
