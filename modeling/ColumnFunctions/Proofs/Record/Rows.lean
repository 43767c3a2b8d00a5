import ColumnFunctions.Proofs.Json.Columns
import ColumnFunctions.Proofs.Json.Entries
import ColumnFunctions.Proofs.Record
import Mathlib.Data.Set.List

namespace ColumnFunctions

open Json

namespace Json.Value

theorem ofText?_inj {s s' : Option String} : ofText? s = ofText? s' ↔ s = s' := by
  cases s <;> cases s' <;> simp [ofText?]

theorem ofInt_inj {n m : ℤ} : ofInt n = ofInt m ↔ n = m := by
  simp [ofInt]

end Json.Value

/-- The scalar that a value is, if it is one or null. A number that is out of range is no scalar,
and neither is a string without a text. -/
def Scalar.ofTree? : Tree → Option (Option Scalar)
  | .null => some none
  | .bool b => some (some (.truth b))
  | .number (some n) => (ofValue? (.number n)).map some
  | .string (some s) => some (some (.text s))
  | _ => none

theorem Scalar.toOption_ofNode?_node (room : ℕ) (t : Tree) :
    (Scalar.ofNode? room t.node).toOption = ofTree? t := by
  cases t with
  | null | bool => rfl
  | number value =>
    cases value with
    | none => rfl
    | some n =>
      simp only [ofNode?, readOption, Json.Tree.node, Tree.orIssue, Value.ofNode, toOption_map,
        toOption_bind, toOption_issue, toOption_ok, Option.map_some, Option.bind_some, ofTree?]
      cases ofValue? (.number n) <;> rfl
  | string text => cases text <;> rfl
  | list ts =>
    cases room with
    | zero => rfl
    | succ room =>
      simp only [ofNode?, readOption, Json.Tree.node, Value.ofNode, toOption_map, toOption_bind,
        ofTree?]
      cases (Value.ofElements room (Tree.elements ts)).toOption <;> rfl
  | object ms =>
    cases room with
    | zero => rfl
    | succ room =>
      simp only [ofNode?, readOption, Json.Tree.node, Value.ofNode, toOption_map, toOption_bind,
        ofTree?]
      cases (Value.ofMembers room [] (Tree.members ms)).toOption <;> rfl

inductive Width where
  | long
  | short

namespace Width

def Fits : Width → ℤ → Prop
  | .long, n => Int64.minValue.toInt ≤ n ∧ n ≤ Int64.maxValue.toInt
  | .short, n => Int32.minValue.toInt ≤ n ∧ n ≤ Int32.maxValue.toInt

instance decidableFits : (w : Width) → (n : ℤ) → Decidable (w.Fits n)
  | .long, _ => instDecidableAnd
  | .short, _ => instDecidableAnd

def read? (w : Width) (s : Scalar) : Option ℤ := s.toInteger.toOption.filter fun n ↦ w.Fits n

theorem fits_toInt64 (n : Int64) : long.Fits n.toInt := ⟨n.minValue_le_toInt, n.toInt_le⟩

theorem fits_toInt32 (n : Int32) : short.Fits n.toInt := ⟨n.minValue_le_toInt, n.toInt_le⟩

theorem read?_long (s : Scalar) : long.read? s = s.toInt64.toOption.map Int64.toInt := by
  rw [read?, Scalar.toInt64, toOption_bind]
  cases s.toInteger with
  | error m => rfl
  | ok n =>
    by_cases hn : long.Fits n
    · have hlong : Scalar.isLong n = true := decide_eq_true hn
      have hlt : n < 2 ^ 63 := Int.lt_of_le_of_lt hn.2 (by decide)
      simp [Option.filter, hn, hlong, Int64.toInt_ofInt_of_le hn.1 hlt]
    · have hlong : Scalar.isLong n = false := decide_eq_false hn
      simp [Option.filter, hn, hlong]

theorem exists_read?_long {s : Scalar} :
    (∃ n, long.read? s = some n) ↔ ∃ n, s.toInt64 = .ok n := by
  rw [read?_long]
  cases s.toInt64 <;> simp

theorem read?_short (s : Scalar) : short.read? s = s.toInt32.toOption.map Int32.toInt := by
  rw [read?, Scalar.toInt32, toOption_bind]
  cases s.toInteger with
  | error m => rfl
  | ok n =>
    rw [toOption_ok, Option.bind_some]
    by_cases hn : short.Fits n
    · have hlt : n < 2 ^ 31 := Int.lt_of_le_of_lt hn.2 (by decide)
      have hrange : Int32.minValue.toInt ≤ n ∧ n ≤ Int32.maxValue.toInt := hn
      rw [if_pos hrange, toOption_pure, Option.map_some, Int32.toInt_ofInt_of_le hn.1 hlt]
      simp [Option.filter, hn]
    · have hrange : ¬ (Int32.minValue.toInt ≤ n ∧ n ≤ Int32.maxValue.toInt) := hn
      rw [if_neg hrange]
      simp [Option.filter, hn]

end Width

inductive Kind where
  | text
  | integer (width : Width)

namespace Kind

def enter : Kind → Option Scalar → Option Value
  | .text, s => some (.ofText? (s.map Scalar.toText))
  | .integer _, none => some (.ofInt 0)
  | .integer w, some s => (w.read? s).map .ofInt

def absent : Kind → Value
  | .text => .null
  | .integer _ => .ofInt 0

theorem enter_none (kind : Kind) : kind.enter none = some kind.absent := by
  cases kind <;> rfl

def Holds : Kind → Value → Prop
  | .text, v => ∃ s, v = .ofText? s
  | .integer w, v => ∃ n, w.Fits n ∧ v = .ofInt n

def column (kind : Kind) (name : String) : Column Value where
  name := name
  absent := kind.absent
  enter t := (Scalar.ofTree? t).bind kind.enter

theorem column_enter_null (kind : Kind) (name : String) :
    (kind.column name).enter .null = some kind.absent :=
  kind.enter_none

theorem exists_enter_text {name : String} {t : Tree} :
    (∃ v, (text.column name).enter t = some v) ↔ ∃ s, Scalar.ofTree? t = some s := by
  simp only [column]
  cases Scalar.ofTree? t <;> simp [enter]

theorem exists_enter_integer {w : Width} {name : String} {t : Tree} :
    (∃ v, ((integer w).column name).enter t = some v) ↔
      ∃ s, Scalar.ofTree? t = some s ∧ ∀ s', s = some s' → ∃ n, w.read? s' = some n := by
  simp only [column]
  rcases Scalar.ofTree? t with _ | _ | s <;> simp [enter]

end Kind

abbrev Layout := List (String × Kind)

namespace Layout

def names (layout : Layout) : List String := layout.map Prod.fst

def columns (layout : Layout) : List (Column Value) :=
  layout.map fun field ↦ field.2.column field.1

theorem names_columns (layout : Layout) : layout.columns.map Column.name = layout.names := by
  simp [columns, names, Kind.column]

end Layout

def withMember (pre post : List (Option String × Tree)) (name : String) (t : Tree) : Tree :=
  .object (pre ++ (some name, t) :: post)

def WrittenWith {α : Type} (toValue : α → Value) (name : String) (v : Value) (x x' : α) : Prop :=
  ∃ members, toValue x = .object members ∧ name ∈ members.map Prod.fst ∧
    toValue x' = .object (put name v members)

/-- A reader gives rows of scalars, of which one has to be there if `needed`. -/
structure Rows {α : Type} (read : (room : ℕ) → Node → Except Complaint α) (toValue : α → Value)
    (layout : Layout) (needed : Bool) (view : α → List Value) : Prop where
  byTree : ∀ room, ByTree (read room)
  nodup : layout.names.Nodup
  closed : ∀ ms, (read 0 (Tree.object ms).node).toOption = none
  other : ∀ room (t : Tree), (∀ ms, t ≠ .object ms) → (∀ ts, t ≠ .list ts) →
    (read room t.node).toOption = none
  object : ∀ room ms row, (read (room + 1) (Tree.object ms).node).toOption.map view = some row ↔
    Legible layout.names [] ms ∧ (needed → AnyNamed layout.names ms) ∧
      layout.columns.map (fun c ↦ c.fill ms c.absent) = row.map some
  list : ∀ room ts, (read room (Tree.list ts).node).toOption =
    if ts.length ≤ layout.length then
      (read room (Tree.object (positional layout.names ts)).node).toOption
    else none
  injective : Function.Injective view
  toValue_eq : ∀ x, toValue x = .object (layout.names.zip (view x))
  holds : ∀ x, List.Forall₂ (fun field v ↦ field.2.Holds v) layout (view x)

namespace Rows

variable {α : Type} {read : (room : ℕ) → Node → Except Complaint α} {toValue : α → Value}
  {layout : Layout} {needed : Bool} {view : α → List Value}
  (h : Rows read toValue layout needed view) {ms ms' : List (Option String × Tree)}

include h

theorem read_eq_some {room : ℕ} {x : α} :
    (read (room + 1) (Tree.object ms).node).toOption = some x ↔
      Legible layout.names [] ms ∧ (needed → AnyNamed layout.names ms) ∧
        layout.columns.map (fun c ↦ c.fill ms c.absent) = (view x).map some := by
  rw [← h.object, Option.map_eq_some_iff]
  constructor
  · exact fun hread ↦ ⟨x, hread, rfl⟩
  · rintro ⟨y, hread, hview⟩
    rwa [← h.injective hview]

theorem exists_read {room : ℕ} :
    (∃ x, (read (room + 1) (Tree.object ms).node).toOption = some x) ↔
      Legible layout.names [] ms ∧ (needed → AnyNamed layout.names ms) ∧
        ∀ c ∈ layout.columns, ∃ v, c.fill ms c.absent = some v := by
  have hrow : (∃ x, (read (room + 1) (Tree.object ms).node).toOption = some x) ↔
      ∃ row, (read (room + 1) (Tree.object ms).node).toOption.map view = some row := by
    cases (read (room + 1) (Tree.object ms).node).toOption <;> simp
  simp only [hrow, h.object, exists_and_left]
  refine and_congr_right fun _ ↦ and_congr_right fun _ ↦ ?_
  have hrange := Set.ext_iff.1 (Set.range_list_map some)
    (layout.columns.map fun c ↦ c.fill ms c.absent)
  simp only [Set.mem_range, Set.mem_ofPred_eq, List.forall_mem_map] at hrange
  simpa only [eq_comm] using hrange

/-- Neither the order of the members matters nor what else there is among them. -/
theorem read_extends (he : Extends layout.names ms ms') (room : ℕ) :
    (read room (Tree.object ms').node).toOption = (read room (Tree.object ms).node).toOption := by
  cases room with
  | zero => rw [h.closed, h.closed]
  | succ room =>
    refine Option.ext fun x ↦ ?_
    rw [h.read_eq_some, h.read_eq_some, he.legible_iff, he.anyNamed_iff]
    refine and_congr_right fun hl ↦ ?_
    have hfill : ∀ c ∈ layout.columns, c.fill ms' c.absent = c.fill ms c.absent := by
      intro c hc
      have hname : c.name ∈ layout.names := layout.names_columns ▸ List.mem_map_of_mem hc
      exact he.fill_eq hl hname c.absent
    rw [List.map_congr_left hfill]

theorem read_repeated {name : String} (hname : name ∈ layout.names)
    (hcount : 2 ≤ (ms.map Prod.fst).count (some name)) (room : ℕ) :
    (read room (Tree.object ms).node).toOption = none := by
  cases room with
  | zero => exact h.closed ms
  | succ room =>
    rw [Option.eq_none_iff_forall_ne_some]
    intro x hx
    have hle := ((h.read_eq_some).1 hx).1.2 name hname
    rw [List.count_nil] at hle
    omega

section Member

variable {j : ℕ} {name : String} {kind : Kind} (hj : layout[j]? = some (name, kind))

include hj in
omit h in
theorem mem_names : name ∈ layout.names := List.mem_map_of_mem (List.mem_of_getElem? hj)

include hj in
theorem fill_cons (t : Tree) :
    layout.columns.map (fun c ↦ c.fill ((some name, t) :: ms) c.absent) =
      (layout.columns.map fun c ↦ c.fill ms c.absent).set j ((kind.column name).enter t) := by
  have hc : layout.columns[j]? = some (kind.column name) := by
    rw [Layout.columns, List.getElem?_map, hj]
    rfl
  have hnodup : (layout.columns.map Column.name).Nodup := layout.names_columns ▸ h.nodup
  have hset := @zipWith_fill_cons _ ms _ _ _ t hnodup hc (layout.columns.map Column.absent)
  rwa [List.zipWith_map_right, List.zipWith_map_right, List.zipWith_self, List.zipWith_self] at hset

include hj in
theorem read_member_cons (t : Tree) (room : ℕ) :
    (read room (Tree.object ((some name, t) :: ms)).node).toOption.map view =
      ((kind.column name).enter t).bind fun v ↦
        (read room (Tree.object ((some name, .null) :: ms)).node).toOption.map
          fun x ↦ (view x).set j v := by
  cases room with
  | zero =>
    rw [h.closed, h.closed]
    cases (kind.column name).enter t <;> rfl
  | succ room =>
    have hlegible : Legible layout.names [] ((some name, t) :: ms) ↔
        Legible layout.names [] ((some name, .null) :: ms) := by
      rw [legible_cons, legible_cons]
    -- Both objects give the row of `ms` with one entry set, so it is enough to set it again.
    have hnull := h.object room ((some name, .null) :: ms)
    rw [h.fill_cons hj, kind.column_enter_null] at hnull
    have hlt : j < (layout.columns.map fun c ↦ c.fill ms c.absent).length := by
      rw [List.length_map, Layout.columns, List.length_map]
      exact (List.getElem?_eq_some_iff.1 hj).1
    refine Option.ext fun row ↦ ?_
    rw [h.object, Option.bind_eq_some_iff, h.fill_cons hj, hlegible]
    constructor
    · rintro ⟨hl, hn, hrow⟩
      obtain ⟨v, -, hv⟩ := List.mem_map.1 (hrow ▸ List.mem_set hlt _)
      have hread := (hnull (row.set j kind.absent)).2
        ⟨hl, hn, by rw [List.map_set, ← hrow, List.set_set]⟩
      obtain ⟨x, hx, hview⟩ := Option.map_eq_some_iff.1 hread
      refine ⟨v, hv.symm, Option.map_eq_some_iff.2 ⟨x, hx, ?_⟩⟩
      refine List.map_injective_iff.2 (Option.some_injective _) ?_
      rw [hview, List.set_set, List.map_set, ← hrow, List.set_set, hv]
    · rintro ⟨v, hv, hrow⟩
      obtain ⟨x, hx, rfl⟩ := Option.map_eq_some_iff.1 hrow
      obtain ⟨hl, hn, hview⟩ := (hnull (view x)).1 (by rw [hx]; rfl)
      exact ⟨hl, hn, by rw [List.map_set, ← hview, List.set_set, hv]⟩

variable {pre post : List (Option String × Tree)} {t t' : Tree} {room : ℕ} {v : Value} {x : α}

theorem read_middle (room : ℕ) (t : Tree) :
    (read room (withMember pre post name t).node).toOption =
      (read room (Tree.object ((some name, t) :: (pre ++ post))).node).toOption := by
  refine h.read_extends ⟨[], fun _ hm ↦ (nomatch hm), ?_⟩ room
  rw [List.append_nil]
  exact List.perm_middle

include hj in
theorem read_member (t : Tree) (room : ℕ) :
    (read room (withMember pre post name t).node).toOption.map view =
      ((kind.column name).enter t).bind fun v ↦
        (read room (withMember pre post name .null).node).toOption.map
          fun x ↦ (view x).set j v := by
  rw [h.read_middle, h.read_middle, h.read_member_cons hj]

include hj in
theorem read_member_congr (ht : (kind.column name).enter t = (kind.column name).enter t') :
    (read room (withMember pre post name t).node).toOption =
      (read room (withMember pre post name t').node).toOption := by
  refine Option.map_injective h.injective ?_
  rw [h.read_member hj, ht, ← h.read_member hj]

include hj in
theorem read_member_none (ht : (kind.column name).enter t = none) :
    (read room (withMember pre post name t).node).toOption = none := by
  rw [← Option.map_eq_none_iff, h.read_member hj, ht, Option.bind_none]

include hj in
theorem writtenWith_iff {x' : α} :
    WrittenWith toValue name v x x' ↔ view x' = (view x).set j v := by
  have hlength : ∀ x, (view x).length = layout.names.length := fun x ↦ by
    rw [← (h.holds x).length_eq, Layout.names, List.length_map]
  have hj' : layout.names[j]? = some name := by
    rw [Layout.names, List.getElem?_map, hj]
    rfl
  have hput := put_zip h.nodup (hlength x).ge hj' v
  constructor
  · rintro ⟨members, hm, -, hx'⟩
    rw [h.toValue_eq, Value.object.injEq] at hm
    rw [h.toValue_eq, Value.object.injEq, ← hm, hput] at hx'
    have hrow := congrArg (List.map Prod.snd) hx'
    rwa [List.map_snd_zip (hlength x').le,
      List.map_snd_zip (List.length_set.trans (hlength x)).le] at hrow
  · intro hview
    refine ⟨_, h.toValue_eq x, ?_, ?_⟩
    · rw [List.map_fst_zip (hlength x).ge]
      exact mem_names hj
    · rw [h.toValue_eq, hput, hview]

include hj in
theorem read_member_some (ht : (kind.column name).enter t = some v) :
    (read room (withMember pre post name t).node).toOption = some x ↔
      ∃ x', (read room (withMember pre post name .null).node).toOption = some x' ∧
        WrittenWith toValue name v x' x := by
  have hmap : (read room (withMember pre post name t).node).toOption = some x ↔
      (read room (withMember pre post name t).node).toOption.map view = some (view x) := by
    rw [← Option.map_some, (Option.map_injective h.injective).eq_iff]
  rw [hmap, h.read_member hj, ht, Option.bind_some, Option.map_eq_some_iff]
  simp only [h.writtenWith_iff hj, eq_comm]

include hj in
theorem exists_read_null :
    (∃ x, (read (room + 1) (withMember pre post name .null).node).toOption = some x) ↔
      Legible layout.names [] (pre ++ (some name, .null) :: post) ∧
        ∀ field ∈ layout, ∀ t, (some field.1, t) ∈ pre ++ post →
          ∃ v, (field.2.column field.1).enter t = some v := by
  have hnamed : AnyNamed layout.names (pre ++ (some name, Tree.null) :: post) :=
    ⟨name, mem_names hj, by simp⟩
  rw [withMember, h.exists_read, iff_true_intro fun _ ↦ hnamed, true_and]
  refine and_congr_right fun hl ↦ ?_
  rw [Layout.columns, List.forall_mem_map]
  refine forall₂_congr fun field hfield ↦ ?_
  have hcount : ((pre ++ (some name, Tree.null) :: post).map Prod.fst).count (some field.1) ≤ 1 :=
    hl.2 field.1 (List.mem_map_of_mem hfield)
  rw [exists_fill hcount]
  have hmem : ∀ t, (some field.1, t) ∈ pre ++ (some name, Tree.null) :: post ↔
      (some field.1, t) ∈ pre ++ post ∨ (field.1 = name ∧ t = .null) := by
    intro t
    simp only [List.mem_append, List.mem_cons, Prod.mk.injEq, Option.some.injEq]
    tauto
  constructor
  · exact fun hall t ht ↦ hall t ((hmem t).2 (.inl ht))
  · intro hall t ht
    rcases (hmem t).1 ht with ht | ⟨-, rfl⟩
    · exact hall t ht
    · exact ⟨_, field.2.column_enter_null field.1⟩

include hj in
theorem read_member_absent (hname : some name ∉ (pre ++ post).map Prod.fst)
    (hneeded : needed → AnyNamed layout.names (pre ++ post)) :
    (read room (Tree.object (pre ++ post)).node).toOption =
      (read room (withMember pre post name .null).node).toOption := by
  rw [h.read_middle]
  generalize pre ++ post = ms at hname hneeded
  cases room with
  | zero => rw [h.closed, h.closed]
  | succ room =>
    have hnamed : AnyNamed layout.names ((some name, Tree.null) :: ms) :=
      ⟨name, mem_names hj, List.mem_cons_self⟩
    have hcolumn : (layout.columns.map fun c ↦ c.fill ms c.absent)[j]? =
        some (some kind.absent) := by
      rw [List.getElem?_map, Layout.columns, List.getElem?_map, hj]
      exact congrArg some (fill_of_not_mem hname kind.absent)
    have hset : layout.columns.map (fun c ↦ c.fill ((some name, .null) :: ms) c.absent) = _ :=
      h.fill_cons hj .null
    obtain ⟨hlt, hvalue⟩ := List.getElem?_eq_some_iff.1 hcolumn
    rw [kind.column_enter_null, ← hvalue, List.set_getElem_self] at hset
    refine Option.ext fun x ↦ ?_
    rw [h.read_eq_some, h.read_eq_some, legible_cons_of_absent hname, hset,
      iff_true_intro hneeded, iff_true_intro fun _ ↦ hnamed]

end Member

end Rows

end ColumnFunctions
