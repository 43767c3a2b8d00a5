import ColumnFunctions.Proofs.Json.Numeral
import ColumnFunctions.Proofs.Json.Quoted
import ColumnFunctions.Proofs.Json.Tree

namespace ColumnFunctions.Json

def Blanks (cs : List Char) : Prop := ∀ c ∈ cs, Cursor.isSpace c

/-- What stands before an element of a list or a member of an object, or before its first one. -/
inductive Lead : (first : Bool) → List Char → Prop
  | first {b : List Char} (hb : Blanks b) : Lead true b
  | next {b b' : List Char} (hb : Blanks b) (hb' : Blanks b') : Lead false (b ++ ',' :: b')

mutual

/-- The ways to write a value, without blanks around it. -/
inductive Spells : Tree → List Char → Prop
  | null : Spells .null ['n', 'u', 'l', 'l']
  | isTrue : Spells (.bool true) ['t', 'r', 'u', 'e']
  | isFalse : Spells (.bool false) ['f', 'a', 'l', 's', 'e']
  | number {n : Numeral} {cs : List Char} (h : n.Spells cs) : Spells (.number n.value.toOption) cs
  | string {text : Option String} {cs : List Char} (h : Quoted.Spells text cs) :
      Spells (.string text) cs
  | list {ts : List Tree} {cs : List Char} (h : SpellsElements true ts cs) :
      Spells (.list ts) ('[' :: cs)
  | object {ms : List (Option String × Tree)} {cs : List Char} (h : SpellsMembers true ms cs) :
      Spells (.object ms) ('\x7b' :: cs)

inductive SpellsElements : (first : Bool) → List Tree → List Char → Prop
  | close {first : Bool} {b : List Char} (hb : Blanks b) : SpellsElements first [] (b ++ [']'])
  | cons {first : Bool} {lead : List Char} {t : Tree} {cs : List Char} {ts : List Tree}
      {rest : List Char} (hl : Lead first lead) (h : Spells t cs)
      (hs : SpellsElements false ts rest) : SpellsElements first (t :: ts) (lead ++ (cs ++ rest))

inductive SpellsMembers : (first : Bool) → List (Option String × Tree) → List Char → Prop
  | close {first : Bool} {b : List Char} (hb : Blanks b) : SpellsMembers first [] (b ++ ['\x7d'])
  | cons {first : Bool} {lead : List Char} {key : Option String} {k b b' : List Char} {t : Tree}
      {cs : List Char} {ms : List (Option String × Tree)} {rest : List Char}
      (hl : Lead first lead) (hk : Quoted.Spells key k) (hb : Blanks b) (hb' : Blanks b')
      (h : Spells t cs) (hs : SpellsMembers false ms rest) :
      SpellsMembers first ((key, t) :: ms)
        (lead ++ (k ++ (b ++ ':' :: (b' ++ (cs ++ rest)))))

end

inductive SpellsAfterBlanks : Tree → List Char → Prop
  | mk {b cs : List Char} {t : Tree} (hb : Blanks b) (h : Spells t cs) :
      SpellsAfterBlanks t (b ++ cs)

/-- A value with blanks around it. -/
inductive SpellsText : Tree → List Char → Prop
  | mk {b b' cs : List Char} {t : Tree} (hb : Blanks b) (hb' : Blanks b') (h : Spells t cs) :
      SpellsText t (b ++ (cs ++ b'))

theorem blanks_nil : Blanks [] := fun _ h ↦ nomatch h

theorem Blanks.append {b b' : List Char} (h : Blanks b) (h' : Blanks b') : Blanks (b ++ b') := by
  intro c hc
  rcases List.mem_append.1 hc with hc | hc
  · exact h c hc
  · exact h' c hc

theorem Lead.append {first : Bool} {lead b : List Char} (h : Lead first lead) (hb : Blanks b) :
    Lead first (lead ++ b) := by
  cases h with
  | first h => exact .first (h.append hb)
  | next h h' =>
    rw [List.append_assoc, List.cons_append]
    exact .next h (h'.append hb)

namespace Cursor

theorem skipSpaceFrom_spec (offset : Nat) (cs : List Char) :
    ∃ b, cs = b ++ (skipSpaceFrom offset cs).rest ∧ Blanks b := by
  induction cs generalizing offset with
  | nil => exact ⟨[], rfl, blanks_nil⟩
  | cons c cs ih =>
    rw [skipSpaceFrom]
    split
    · next hc =>
      obtain ⟨b, hcs, hb⟩ := ih (offset + 1)
      refine ⟨c :: b, ?_, ?_⟩
      · rw [List.cons_append, ← hcs]
      · intro d hd
        rcases List.mem_cons.1 hd with rfl | hd
        · exact hc
        · exact hb d hd
    · exact ⟨[], rfl, blanks_nil⟩

theorem skipSpaceFrom_blanks {b rest : List Char} (hb : Blanks b)
    (hr : ∀ c ∈ rest.head?, isSpace c = false) (offset : Nat) :
    skipSpaceFrom offset (b ++ rest) = ⟨rest, offset + b.length⟩ := by
  induction b generalizing offset with
  | nil =>
    cases rest with
    | nil => rfl
    | cons c rest =>
      have hc : isSpace c = false := hr c rfl
      simp [skipSpaceFrom, hc]
  | cons c b ih =>
    have hc : isSpace c := hb c List.mem_cons_self
    rw [List.cons_append, skipSpaceFrom, if_pos hc, ih fun d hd ↦ hb d (.tail _ hd),
      List.length_cons]
    congr 1
    omega

end Cursor

theorem Blanks.ends {b rest : List Char} (hb : Blanks b) (hr : Ends rest) : Ends (b ++ rest) := by
  cases b with
  | nil => exact hr
  | cons c b =>
    intro d hd
    cases hd
    have hc : Cursor.isSpace c := hb c List.mem_cons_self
    simp only [Cursor.isSpace, decide_eq_true_eq] at hc
    rcases hc with rfl | rfl | rfl | rfl <;> decide

theorem Lead.ends {lead : List Char} (h : Lead false lead) (rest : List Char) :
    Ends (lead ++ rest) := by
  cases h with
  | next hb =>
    rw [List.append_assoc]
    exact hb.ends (ends_of_head rfl (by decide) (by decide) (by decide))

theorem SpellsElements.ends {ts : List Tree} {cs : List Char} (h : SpellsElements false ts cs)
    (rest : List Char) : Ends (cs ++ rest) := by
  cases h with
  | close hb =>
    rw [List.append_assoc]
    exact hb.ends (ends_of_head rfl (by decide) (by decide) (by decide))
  | cons hl =>
    rw [List.append_assoc]
    exact hl.ends _

theorem SpellsMembers.ends {ms : List (Option String × Tree)} {cs : List Char}
    (h : SpellsMembers false ms cs) (rest : List Char) : Ends (cs ++ rest) := by
  cases h with
  | close hb =>
    rw [List.append_assoc]
    exact hb.ends (ends_of_head rfl (by decide) (by decide) (by decide))
  | cons hl =>
    rw [List.append_assoc]
    exact hl.ends _

/-- A value begins with a character that neither is blank nor closes a list. -/
theorem Spells.head {t : Tree} {cs : List Char} (h : Spells t cs) :
    ∃ x rest, cs = x :: rest ∧ Cursor.isSpace x = false ∧ x ≠ ']' := by
  cases h with
  | null | isTrue | isFalse | list | object => exact ⟨_, _, rfl, rfl, by decide⟩
  | number h =>
    obtain ⟨x, rest, rfl, hx⟩ := h.head
    refine ⟨x, rest, rfl, ?_, ?_⟩
    · rcases hx with rfl | hx
      · rfl
      · rw [Bool.eq_false_iff]
        intro hs
        simp only [Cursor.isSpace, decide_eq_true_eq] at hs
        rcases hs with rfl | rfl | rfl | rfl <;> exact absurd hx (by decide)
    · rintro rfl
      exact absurd hx (by decide)
  | string h =>
    cases h
    exact ⟨_, _, rfl, rfl, by decide⟩

theorem Spells.length_pos {t : Tree} {cs : List Char} (h : Spells t cs) : 0 < cs.length := by
  obtain ⟨x, rest, rfl, -⟩ := h.head
  exact Nat.succ_pos _

theorem SpellsElements.length_pos {first : Bool} {ts : List Tree} {cs : List Char}
    (h : SpellsElements first ts cs) : 0 < cs.length := by
  cases h with
  | close => simp
  | cons _ h =>
    have hpos := h.length_pos
    simp only [List.length_append]
    omega

theorem SpellsMembers.length_pos {first : Bool} {ms : List (Option String × Tree)}
    {cs : List Char} (h : SpellsMembers first ms cs) : 0 < cs.length := by
  cases h with
  | close => simp
  | cons =>
    simp only [List.length_append, List.length_cons]
    omega

structure Faults where
  ended : Nat → Fault
  endedAfterComma : Nat → Fault
  trailingComma : Nat → Fault
  noSeparator : Nat → Fault

def readItems {α : Type} (faults : Faults) (close : Char) (closed : Nat → α) (broken : Fault → α)
    (item : Cursor → α × Except Fault Cursor) (first : Bool) (c : Cursor) :
    α × Except Fault Cursor :=
  let c := c.skipSpace
  match c.rest with
  | [] => breakAt broken (faults.ended c.offset)
  | x :: rest =>
    if x = close then (closed (c.offset + 1), .ok ⟨rest, c.offset + 1⟩)
    else if first then item c
    else if x = ',' then
      let c := Cursor.skipSpaceFrom (c.offset + 1) rest
      match c.rest with
      | [] => breakAt broken (faults.endedAfterComma c.offset)
      | y :: _ =>
        if y = close then breakAt broken (faults.trailingComma (c.offset + 1)) else item c
    else breakAt broken (faults.noSeparator (c.offset + 1))

def elementFaults : Faults where
  ended := .all .endInList
  endedAfterComma := .closingAs .trailingCharacters .endInValue
  trailingComma := .skippedAs .valueExpected .trailingComma
  noSeparator := .closingAs .trailingCharacters .listSeparatorExpected

def memberFaults : Faults where
  ended := .all .endInObject
  endedAfterComma := .skippedAs .endInObject .endInValue
  trailingComma := .skippedAs .keyExpected .trailingComma
  noSeparator := .all .objectSeparatorExpected

theorem readElements_succ (first : Bool) (fuel : Nat) (c : Cursor) :
    readElements first (fuel + 1) c =
      readItems elementFaults ']' .close .broken (readElement fuel) first c := by
  rw [readElements]
  rfl

theorem readMembers_succ (first : Bool) (fuel : Nat) (c : Cursor) :
    readMembers first (fuel + 1) c =
      readItems memberFaults '\x7d' .close .broken (readMember fuel) first c := by
  rw [readMembers]
  rfl

end ColumnFunctions.Json
