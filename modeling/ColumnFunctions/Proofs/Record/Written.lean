import ColumnFunctions.Proofs.Json.Entries
import ColumnFunctions.Proofs.Json.Restored
import ColumnFunctions.Proofs.Record

namespace ColumnFunctions

open Json

namespace Json.Value

theorem exact_ofText? (s : Option String) : (ofText? s).Exact := by
  cases s <;> trivial

theorem exact_ofInt {n : Int} (hl : Int64.minValue.toInt ≤ n) (hu : n ≤ Int64.maxValue.toInt) :
    (ofInt n).Exact := by
  have hmax : Int64.maxValue.toInt < UInt64.size := by decide
  exact ⟨hl, Int.lt_of_le_of_lt hu hmax⟩

end Json.Value

namespace Scalar

theorem ofNode?_text (room : Nat) (s : Option String) :
    Scalar.ofNode? room (Value.ofText? s).tree.node = .ok (s.map .text) := by
  cases s <;> rfl

theorem ofNode?_int (room : Nat) {n : Int} (h : n ≤ Int64.maxValue.toInt) :
    Scalar.ofNode? room (Value.ofInt n).tree.node = .ok (some (.integer n)) := by
  have hscalar : ofValue? (.number (.whole n)) = some (.integer n) := if_pos h
  have hvalue : Value.ofNode room (Value.ofInt n).tree.node = .ok (.number (.whole n)) := rfl
  rw [Scalar.ofNode?, readOption, hvalue]
  · simp only [bind, Except.bind, hscalar]
    rfl
  · intro stop h
    cases h

theorem toInt64_integer (n : Int64) : (Scalar.integer n.toInt).toInt64 = .ok n := by
  have h : isLong n.toInt = true := decide_eq_true ⟨n.minValue_le_toInt, n.toInt_le⟩
  simp only [toInt64, toInteger, bind, Except.bind, h, if_true, Int64.ofInt_toInt]
  rfl

theorem toInt32_integer (n : Int32) : (Scalar.integer n.toInt).toInt32 = .ok n := by
  have h : Int32.minValue.toInt ≤ n.toInt ∧ n.toInt ≤ Int32.maxValue.toInt :=
    ⟨n.minValue_le_toInt, n.toInt_le⟩
  simp only [toInt32, toInteger, bind, Except.bind, if_pos h, Int32.ofInt_toInt]
  rfl

end Scalar

namespace EventRecord

variable (room : Nat)

theorem textField_restores (name : String) (set : Option String → EventRecord → EventRecord)
    (s : Option String) :
    (textField (Scalar.ofNode? room) name set).Restores (.ofText? s) (set s) := by
  refine ⟨Value.exact_ofText? s, ?_⟩
  simp only [textField, Scalar.ofNode?_text, bind, Except.bind]
  cases s <;> rfl

theorem integerField_restores {α : Type} [OfNat α 0] {convert : Scalar → Except Misfit α} {n : Int}
    {m : α} (hl : Int64.minValue.toInt ≤ n) (hu : n ≤ Int64.maxValue.toInt)
    (hm : convert (.integer n) = .ok m) (name : String) (set : α → EventRecord → EventRecord) :
    (integerField (Scalar.ofNode? room) convert name set).Restores (.ofInt n) (set m) := by
  refine ⟨Value.exact_ofInt hl hu, ?_⟩
  simp only [integerField, Scalar.ofNode?_int room hu, bind, Except.bind, hm]
  rfl

theorem longField_restores (name : String) (set : Int64 → EventRecord → EventRecord) (n : Int64) :
    (integerField (Scalar.ofNode? room) Scalar.toInt64 name set).Restores (.ofInt n.toInt)
      (set n) :=
  integerField_restores room n.minValue_le_toInt n.toInt_le (Scalar.toInt64_integer n) name set

theorem shortField_restores (name : String) (set : Int32 → EventRecord → EventRecord) (n : Int32) :
    (integerField (Scalar.ofNode? room) Scalar.toInt32 name set).Restores (.ofInt n.toInt)
      (set n) := by
  have hl : Int64.minValue.toInt ≤ n.toInt := Int.le_trans (by decide) n.minValue_le_toInt
  have hu : n.toInt ≤ Int64.maxValue.toInt := Int.le_trans n.toInt_le (by decide)
  exact integerField_restores room hl hu (Scalar.toInt32_integer n) name set

theorem nodup_names (source : Source Node) : ((shape source).fields.map Field.name).Nodup := by
  simp [shape, textField, integerField]

theorem restores (r : EventRecord) : ∃ members, r.toValue = .object members ∧
    Shape.Restores (shape (Scalar.ofNode? room)).fields members {} r := by
  have text := textField_restores room
  have long := longField_restores room
  have short := shortField_restores room
  exact ⟨_, rfl, .cons _ (text _ _ _) <| .cons _ (long _ _ _) <| .cons _ (text _ _ _) <|
    .cons _ (text _ _ _) <| .cons _ (text _ _ _) <| .cons _ (text _ _ _) <|
    .cons _ (text _ _ _) <| .cons _ (text _ _ _) <| .cons _ (short _ _ _) <|
    .cons _ (short _ _ _) <| .cons _ (short _ _ _) <| .cons _ (text _ _ _) <|
    .cons _ (text _ _ _) <| .cons _ (text _ _ _) <| .cons _ (text _ _ _) <|
    .cons _ (text _ _ _) <| .nil _⟩

theorem exact_toValue (r : EventRecord) : r.toValue.Exact := by
  obtain ⟨members, hr, h⟩ := restores 0 r
  rw [hr]
  exact h.exact

theorem ofNode_toValue (r : EventRecord) :
    EventRecord.ofNode (room + 1) r.toValue.tree.node = .ok r := by
  obtain ⟨members, hr, h⟩ := restores room r
  rw [hr]
  exact h.read (nodup_names _)

end EventRecord

namespace UserAttribute

variable (room : Nat)

theorem nodup_names (source : Node → Except Complaint (Option Scalar)) :
    ((shape source).fields.map Field.name).Nodup := by
  simp [shape]

theorem restores (a : UserAttribute) : ∃ members, a.toValue = .object members ∧
    Shape.Restores (shape (Scalar.ofNode? room)).fields members {}
      ⟨some (a.value.map .text), some (some (.integer a.setTimestamp.toInt))⟩ := by
  let value := a.value.map Scalar.text
  let time := some (Scalar.integer a.setTimestamp.toInt)
  refine ⟨_, rfl, .cons (fun d ↦ { d with value := some value }) ⟨Value.exact_ofText? _, ?_⟩ <|
    .cons (fun d ↦ { d with setTimestamp := some time })
      ⟨Value.exact_ofInt a.setTimestamp.minValue_le_toInt a.setTimestamp.toInt_le, ?_⟩ <| .nil _⟩
  · simp only [Scalar.ofNode?_text, bind, Except.bind]
    rfl
  · simp only [Scalar.ofNode?_int room a.setTimestamp.toInt_le, bind, Except.bind]
    rfl

theorem exact_toValue (a : UserAttribute) : a.toValue.Exact := by
  obtain ⟨members, ha, h⟩ := restores 0 a
  rw [ha]
  exact h.exact

theorem ofNode_toValue (a : UserAttribute) :
    UserAttribute.ofNode (room + 1) a.toValue.tree.node = .ok a := by
  obtain ⟨members, ha, h⟩ := restores room a
  have hread : Shape.read (fun room ↦ shape (Scalar.ofNode? room)) {} (room + 1)
      (Value.object members).tree.node = .ok _ := h.read (nodup_names _)
  have hdraft : ofDraft ⟨some (a.value.map .text), some (some (.integer a.setTimestamp.toInt))⟩ =
      .ok a := by
    have hvalue : (a.value.map Scalar.text).map Scalar.toText = a.value := by
      cases a.value <;> rfl
    simp only [ofDraft, Option.isNone_some, Bool.false_eq_true, false_and, if_false,
      Option.join_some, Scalar.toInt64_integer, bind, Except.bind, hvalue]
    rfl
  rw [UserAttribute.ofNode, ha, hread]
  simp only [bind, Except.bind, hdraft]
  rfl

end UserAttribute

namespace UserRecord

theorem exact_toValue (r : UserRecord) : r.toValue.Exact := by
  obtain ⟨attributes⟩ := r
  induction attributes with
  | nil => trivial
  | cons entry attributes ih => exact ⟨entry.2.exact_toValue, ih⟩

theorem ofNode_toValue {r : UserRecord} (hn : (r.attributes.map Prod.fst).Nodup) (room : Nat) :
    UserRecord.ofNode (room + 2) r.toValue.tree.node = .ok r := by
  have hread := readEntries_written (UserAttribute.ofNode_toValue room) hn
  rw [UserRecord.ofNode, toValue, Value.tree, Json.Tree.node, readMap, hread]
  rfl

theorem nodup_of_ofNode {room : Nat} {n : Node} {r : UserRecord}
    (h : UserRecord.ofNode room n = .ok r) : (r.attributes.map Prod.fst).Nodup := by
  have hread : readMap UserAttribute.ofNode room n = .ok r.attributes := by
    rw [UserRecord.ofNode] at h
    cases hmap : readMap UserAttribute.ofNode room n with
    | error c =>
      rw [hmap] at h
      cases h
    | ok attributes =>
      rw [hmap] at h
      cases h
      rfl
  cases n with
  | object start ms =>
    cases room with
    | zero => cases hread
    | succ room => exact nodup_readEntries hread List.nodup_nil
  | null | bool | number | string | list | broken => cases hread

end UserRecord

end ColumnFunctions
