import ColumnFunctions.Proofs.Json.Entries
import ColumnFunctions.Proofs.Json.Restored
import Mathlib.Data.List.Nodup

namespace ColumnFunctions.Json

variable {β σ : Type}

/-- A column has a name, an entry for a member that is not there, and the entry for a value. -/
structure Column (β : Type) where
  name : String
  absent : β
  enter : Tree → Option β

def Column.fill (ms : List (Option String × Tree)) (c : Column β) (x : β) : Option β :=
  match ms.lookup (some c.name) with
  | some t => c.enter t
  | none => some x

/-- The keys are texts, and none of the names comes twice, be it among those seen before. -/
def Legible (names seen : List String) (ms : List (Option String × Tree)) : Prop :=
  (∀ m ∈ ms, m.1 ≠ none) ∧
    ∀ name ∈ names, (ms.map Prod.fst).count (some name) + seen.count name ≤ 1

def AnyNamed (names : List String) (ms : List (Option String × Tree)) : Prop :=
  ∃ name ∈ names, some name ∈ ms.map Prod.fst

section Fill

variable {ms : List (Option String × Tree)} {columns : List (Column β)} {c : Column β} {j : ℕ}
  {t : Tree} {k : String}

theorem fill_cons_of_ne (h : c.name ≠ k) (x : β) : c.fill ((some k, t) :: ms) x = c.fill ms x := by
  have hne : (some c.name == some k) = false := by simpa using h
  rw [Column.fill, Column.fill, List.lookup_cons, hne]

theorem fill_cons_self (x : β) : c.fill ((some c.name, t) :: ms) x = c.enter t := by
  rw [Column.fill, List.lookup_cons_self]

theorem lookup_eq_none : ms.lookup (some k) = none ↔ some k ∉ ms.map Prod.fst := by
  rw [List.lookup_eq_none_iff, List.mem_map, not_exists]
  simp only [bne_iff_ne, not_and]
  exact ⟨fun h m hm heq ↦ h m hm heq.symm, fun h m hm heq ↦ h m hm heq.symm⟩

theorem fill_of_not_mem (h : some c.name ∉ ms.map Prod.fst) (x : β) : c.fill ms x = some x := by
  rw [Column.fill, lookup_eq_none.2 h]

theorem zipWith_fill_nil {xs : List β} (h : xs.length = columns.length) :
    List.zipWith (Column.fill []) columns xs = xs.map some := by
  induction columns generalizing xs with
  | nil => rw [List.length_eq_zero_iff.1 h, List.zipWith_nil_left, List.map_nil]
  | cons c columns ih =>
    obtain ⟨x, xs, rfl⟩ := List.exists_cons_of_length_eq_add_one h
    rw [List.zipWith_cons_cons, ih (Nat.succ.inj h)]
    rfl

/-- A member whose name is no column's changes no entry. -/
theorem zipWith_fill_cons_of_not_mem (h : k ∉ columns.map Column.name) (xs : List β) :
    List.zipWith (Column.fill ((some k, t) :: ms)) columns xs =
      List.zipWith (Column.fill ms) columns xs := by
  induction columns generalizing xs with
  | nil => rfl
  | cons c columns ih =>
    rw [List.map_cons, List.mem_cons, not_or] at h
    cases xs with
    | nil => rfl
    | cons x xs =>
      rw [List.zipWith_cons_cons, List.zipWith_cons_cons, fill_cons_of_ne (Ne.symm h.1), ih h.2]

variable (hn : (columns.map Column.name).Nodup) (hc : columns[j]? = some c)

include hn hc in
/-- Any other member changes the entry of its own column only. -/
theorem zipWith_fill_cons (xs : List β) :
    List.zipWith (Column.fill ((some c.name, t) :: ms)) columns xs =
      (List.zipWith (Column.fill ms) columns xs).set j (c.enter t) := by
  induction columns generalizing j xs with
  | nil => cases hc
  | cons d columns ih =>
    cases xs with
    | nil => rfl
    | cons x xs =>
      rw [List.map_cons, List.nodup_cons] at hn
      rw [List.zipWith_cons_cons, List.zipWith_cons_cons]
      cases j with
      | zero =>
        obtain rfl : d = c := Option.some.inj hc
        rw [List.set_cons_zero, fill_cons_self, zipWith_fill_cons_of_not_mem hn.1]
      | succ j =>
        have hmem : c.name ∈ columns.map Column.name :=
          List.mem_map_of_mem (List.mem_of_getElem? hc)
        have hne : d.name ≠ c.name := fun heq ↦ hn.1 (heq ▸ hmem)
        rw [List.set_cons_succ, fill_cons_of_ne hne, ih hn.2 hc]

include hc in
theorem zipWith_fill_set (h : some c.name ∉ ms.map Prod.fst) (xs : List β) (x : β) :
    List.zipWith (Column.fill ms) columns (xs.set j x) =
      (List.zipWith (Column.fill ms) columns xs).set j (some x) := by
  induction columns generalizing j xs with
  | nil => cases hc
  | cons d columns ih =>
    cases xs with
    | nil => rfl
    | cons y xs =>
      cases j with
      | zero =>
        obtain rfl : d = c := Option.some.inj hc
        rw [List.set_cons_zero, List.zipWith_cons_cons, List.zipWith_cons_cons,
          fill_of_not_mem h, List.set_cons_zero]
      | succ j =>
        rw [List.set_cons_succ, List.zipWith_cons_cons, List.zipWith_cons_cons, ih hc,
          List.set_cons_succ]

end Fill

section Legible

variable {names seen : List String} {ms : List (Option String × Tree)} {t : Tree} {k : String}

theorem legible_nil (h : seen.Nodup) : Legible names seen [] := by
  refine ⟨fun _ hm ↦ (nomatch hm), fun name _ ↦ ?_⟩
  rw [List.map_nil, List.count_nil, Nat.zero_add]
  exact List.nodup_iff_count_le_one.1 h name

theorem not_legible_none : ¬ Legible names seen ((none, t) :: ms) :=
  fun h ↦ h.1 _ List.mem_cons_self rfl

theorem not_legible_of_mem (hk : k ∈ names) (hs : k ∈ seen) :
    ¬ Legible names seen ((some k, t) :: ms) := by
  intro h
  have hcount := h.2 k hk
  have hpos := List.count_pos_iff.2 hs
  rw [List.map_cons, List.count_cons_self] at hcount
  omega

theorem named_cons : (∀ m ∈ (some k, t) :: ms, m.1 ≠ none) ↔ ∀ m ∈ ms, m.1 ≠ none := by
  rw [List.forall_mem_cons]
  exact and_iff_right (Option.some_ne_none k)

theorem legible_cons_of_not_mem (hk : k ∉ names) :
    Legible names seen ((some k, t) :: ms) ↔ Legible names seen ms := by
  refine and_congr named_cons (forall₂_congr fun name hname ↦ ?_)
  have hne : some k ≠ some name := fun heq ↦ hk (Option.some.inj heq ▸ hname)
  rw [List.map_cons, List.count_cons_of_ne hne]

theorem legible_cons :
    Legible names seen ((some k, t) :: ms) ↔ Legible names (k :: seen) ms := by
  refine and_congr named_cons (forall₂_congr fun name _ ↦ ?_)
  rw [List.map_cons, List.count_cons, List.count_cons]
  simp only [beq_iff_eq, Option.some.injEq]
  omega

theorem legible_cons_of_absent (hk : some k ∉ ms.map Prod.fst) :
    Legible names [] ((some k, t) :: ms) ↔ Legible names [] ms := by
  refine and_congr named_cons (forall₂_congr fun name _ ↦ ?_)
  rw [List.map_cons]
  by_cases heq : some k = some name
  · have hzero : (ms.map Prod.fst).count (some name) = 0 := List.count_eq_zero.2 (heq ▸ hk)
    simp [hzero, heq]
  · rw [List.count_cons_of_ne heq]

theorem Legible.not_mem (h : Legible names (k :: seen) ms) (hk : k ∈ names) :
    some k ∉ ms.map Prod.fst := by
  intro hmem
  have hcount := h.2 k hk
  have hpos := List.count_pos_iff.2 hmem
  rw [List.count_cons_self] at hcount
  omega

end Legible

section Extends

variable {names : List String} {ms ms' : List (Option String × Tree)} {c : Column β} {k : String}

/-- An entry can be made unless there is a member of which it cannot. -/
theorem exists_fill (h : (ms.map Prod.fst).count (some c.name) ≤ 1) {x : β} :
    (∃ y, c.fill ms x = some y) ↔ ∀ t, (some c.name, t) ∈ ms → ∃ y, c.enter t = some y := by
  simp only [← lookup_eq_some_iff h, Column.fill]
  cases ms.lookup (some c.name) <;> simp

/-- The members in another order, and among them others with names that are not among the given. -/
def Extends (names : List String) (ms ms' : List (Option String × Tree)) : Prop :=
  ∃ more : List (Option String × Tree), (∀ m ∈ more, ∃ key, m.1 = some key ∧ key ∉ names) ∧
    ms'.Perm (ms ++ more)

namespace Extends

theorem mem_iff (h : Extends names ms ms') (hk : k ∈ names) {t : Tree} :
    (some k, t) ∈ ms' ↔ (some k, t) ∈ ms := by
  obtain ⟨more, hmore, hp⟩ := h
  rw [hp.mem_iff, List.mem_append, or_iff_left]
  intro hmem
  obtain ⟨key, heq, hkey⟩ := hmore _ hmem
  exact hkey (Option.some.inj heq ▸ hk)

theorem count_eq (h : Extends names ms ms') (hk : k ∈ names) :
    (ms'.map Prod.fst).count (some k) = (ms.map Prod.fst).count (some k) := by
  obtain ⟨more, hmore, hp⟩ := h
  have hzero : (more.map Prod.fst).count (some k) = 0 := by
    rw [List.count_eq_zero]
    intro hmem
    obtain ⟨m, hm, heq⟩ := List.mem_map.1 hmem
    obtain ⟨key, hm, hkey⟩ := hmore m hm
    exact hkey (Option.some.inj (hm.symm.trans heq) ▸ hk)
  rw [(hp.map Prod.fst).count_eq, List.map_append, List.count_append, hzero, Nat.add_zero]

theorem named_iff (h : Extends names ms ms') :
    (∀ m ∈ ms', m.1 ≠ none) ↔ ∀ m ∈ ms, m.1 ≠ none := by
  obtain ⟨more, hmore, hp⟩ := h
  simp only [hp.mem_iff]
  rw [List.forall_mem_append, and_iff_left]
  intro m hm
  obtain ⟨key, hkey, -⟩ := hmore m hm
  rw [hkey]
  exact Option.some_ne_none key

theorem legible_iff (h : Extends names ms ms') : Legible names [] ms' ↔ Legible names [] ms :=
  and_congr h.named_iff (forall₂_congr fun _ hname ↦ by rw [h.count_eq hname])

theorem anyNamed_iff (h : Extends names ms ms') : AnyNamed names ms' ↔ AnyNamed names ms := by
  refine exists_congr fun name ↦ and_congr_right fun hname ↦ ?_
  rw [← List.count_pos_iff, h.count_eq hname, List.count_pos_iff]

theorem fill_eq (h : Extends names ms ms') (hl : Legible names [] ms) (hc : c.name ∈ names)
    (x : β) : c.fill ms' x = c.fill ms x := by
  have hcount : (ms.map Prod.fst).count (some c.name) ≤ 1 := hl.2 c.name hc
  have hcount' : (ms'.map Prod.fst).count (some c.name) ≤ 1 := h.count_eq hc ▸ hcount
  have hlookup : ms'.lookup (some c.name) = ms.lookup (some c.name) := by
    refine Option.ext fun t ↦ ?_
    rw [lookup_eq_some_iff hcount, lookup_eq_some_iff hcount', h.mem_iff hc]
  rw [Column.fill, Column.fill, hlookup]

end Extends

end Extends

def positional (names : List String) (ts : List Tree) : List (Option String × Tree) :=
  (names.map some).zip ts

namespace Shape

/-- A list is read as the object that has its elements under the names of the fields. -/
theorem toOption_readElements {shape : Shape Node σ} (hn : (shape.fields.map Field.name).Nodup)
    (hr : shape.required = false) {fields : List (Field Node σ)} (hf : fields ⊆ shape.fields)
    (hd : (fields.map Field.name).Nodup) {seen : List String}
    (hs : ∀ field ∈ fields, field.name ∉ seen) (i : ℕ) (record : σ) (ts : List Tree) :
    (shape.readElements i record fields (Tree.elements ts)).toOption =
      if ts.length ≤ fields.length then
        (shape.readMembers seen record
          (Tree.members (positional (fields.map Field.name) ts))).toOption
      else none := by
  induction ts generalizing fields seen i record with
  | nil =>
    have hlength : shape.checkLength i = .ok () := by
      rw [checkLength, hr]
      rfl
    have hnames : shape.checkNames seen = .ok () := by
      rw [checkNames, hr]
      rfl
    rw [Tree.elements, readElements_close, hlength, List.length_nil, if_pos (Nat.zero_le _),
      positional, List.zip_nil_right, Tree.members, readMembers_close, hnames]
  | cons t ts ih =>
    cases fields with
    | nil => rfl
    | cons field fields =>
      rw [List.map_cons, List.nodup_cons] at hd
      have hfield : shape.field? field.name = some field :=
        field?_eq_some hn (hf List.mem_cons_self)
      have hseen : field.name ∉ seen := hs field List.mem_cons_self
      have hs' : ∀ f ∈ fields, f.name ∉ field.name :: seen := by
        intro f hmem
        rw [List.mem_cons, not_or]
        refine ⟨fun heq ↦ hd.1 (heq ▸ List.mem_map_of_mem hmem), hs f (.tail _ hmem)⟩
      have hrest := fun record ↦
        ih (fun f hmem ↦ hf (.tail _ hmem)) hd.2 hs' (i + 1) record
      rw [positional, List.map_cons, List.map_cons, List.zip_cons_cons, ← positional, Tree.members,
        readMembers_cons, Tree.elements, readElements]
      simp only [toOption_bind, toOption_part, Tree.toOption_orIssue, Option.bind_some, hfield,
        if_neg hseen, hrest, List.length_cons, Nat.add_le_add_iff_right]
      split
      · rfl
      · cases (field.read t.node).toOption <;> rfl

/-- The fields have their columns in order from the `i`-th on. What a field makes of a value is
entered there and changes no other column. -/
inductive Enters (view : σ → List β) : ℕ → List (Field Node σ) → List (Column β) → Prop
  | nil (i : ℕ) : Enters view i [] []
  | cons {i : ℕ} {field : Field Node σ} {fields : List (Field Node σ)} {column : Column β}
      {columns : List (Column β)} (hname : field.name = column.name)
      (h : ∀ t record, (field.read t.node).toOption.map (fun change ↦ view (change record)) =
        (column.enter t).map ((view record).set i))
      (hs : Enters view (i + 1) fields columns) :
      Enters view i (field :: fields) (column :: columns)

variable {view : σ → List β} {i : ℕ} {fields : List (Field Node σ)} {columns : List (Column β)}
  {k : String}

theorem Enters.names_eq (h : Enters view i fields columns) :
    fields.map Field.name = columns.map Column.name := by
  induction h with
  | nil => rfl
  | cons hname _ _ ih => rw [List.map_cons, List.map_cons, hname, ih]

theorem Enters.of_find? (h : Enters view i fields columns) {field : Field Node σ}
    (hf : fields.find? (·.name = k) = some field) :
    ∃ (j : ℕ) (c : Column β), columns[j]? = some c ∧ c.name = k ∧ ∀ (t : Tree) (record : σ),
      (field.read t.node).toOption.map (fun change ↦ view (change record)) =
        (c.enter t).map ((view record).set (i + j)) := by
  induction h with
  | nil => cases hf
  | @cons i f fields c columns hname hread _ ih =>
    by_cases hk : f.name = k
    · rw [List.find?_cons_of_pos (by simpa using hk)] at hf
      obtain rfl : f = field := Option.some.inj hf
      exact ⟨0, c, rfl, hname.symm.trans hk, hread⟩
    · rw [List.find?_cons_of_neg (by simpa using hk)] at hf
      obtain ⟨j, d, hd, hdk, hread⟩ := ih hf
      refine ⟨j + 1, d, hd, hdk, ?_⟩
      rwa [Nat.add_right_comm, Nat.add_assoc] at hread

/-- The records of a shape, of whose fields none has to be there, are the rows of a table. -/
structure Table (shape : Shape Node σ) (initial : σ) (view : σ → List β)
    (columns : List (Column β)) : Prop where
  enters : Enters view 0 shape.fields columns
  nodup : (columns.map Column.name).Nodup
  optional : shape.required = false
  length_view : ∀ record, (view record).length = columns.length
  view_initial : view initial = columns.map Column.absent
  injective : Function.Injective view

namespace Table

variable {shape : Shape Node σ} {initial : σ}

/-- The members of an object give a row just if they are legible and every entry can be made. -/
theorem readMembers_eq_some (h : Table shape initial view columns) {seen : List String}
    (hs : seen.Nodup) {record : σ} {ms : List (Option String × Tree)} {row : List β} :
    (shape.readMembers seen record (Tree.members ms)).toOption.map view = some row ↔
      Legible (columns.map Column.name) seen ms ∧
        List.zipWith (Column.fill ms) columns (view record) = row.map some := by
  induction ms generalizing seen record with
  | nil =>
    have hnames : shape.checkNames seen = .ok () := by
      rw [checkNames, h.optional]
      rfl
    rw [Tree.members, readMembers_close, hnames, zipWith_fill_nil (h.length_view record)]
    simp [legible_nil hs, List.map_inj_right fun _ _ ↦ Option.some.inj]
  | cons m ms ih =>
    obtain ⟨key, t⟩ := m
    rw [Tree.members, readMembers_cons, Tree.toOption_orIssue]
    cases key with
    | none => simp [not_legible_none]
    | some k =>
      rw [Option.bind_some]
      cases hf : shape.field? k with
      | none =>
        have hk : k ∉ columns.map Column.name := h.enters.names_eq ▸ not_mem_names_of_field? hf
        rw [Tree.tree?_node, Option.bind_some, ih hs, legible_cons_of_not_mem hk,
          zipWith_fill_cons_of_not_mem hk]
      | some field =>
        obtain ⟨j, c, hc, rfl, hread⟩ := h.enters.of_find? hf
        have hmem : c.name ∈ columns.map Column.name :=
          List.mem_map_of_mem (List.mem_of_getElem? hc)
        by_cases hseen : c.name ∈ seen
        · simp [hseen, not_legible_of_mem hmem hseen]
        have hs' : (c.name :: seen).Nodup := List.nodup_cons.2 ⟨hseen, hs⟩
        have hentry := hread t record
        rw [Nat.zero_add] at hentry
        simp only [if_neg hseen]
        rw [legible_cons, zipWith_fill_cons h.nodup hc]
        cases hfield : (field.read t.node).toOption with
        | none =>
          rw [hfield, Option.map_none, eq_comm, Option.map_eq_none_iff] at hentry
          rw [hentry]
          constructor
          · intro hrow
            cases hrow
          · rintro ⟨-, hrow⟩
            -- The entry that cannot be made stays in the row, whatever the other members are.
            have hlt : j < (List.zipWith (Column.fill ms) columns (view record)).length := by
              rw [List.length_zipWith, h.length_view, Nat.min_self]
              exact (List.getElem?_eq_some_iff.1 hc).1
            have hnone := List.mem_set hlt (none : Option β)
            rw [hrow] at hnone
            simp at hnone
        | some change =>
          rw [hfield, Option.map_some, eq_comm, Option.map_eq_some_iff] at hentry
          obtain ⟨x, hx, hview⟩ := hentry
          rw [Option.bind_some, ih hs', hx, ← hview]
          -- The name does not come again, so the entry is the last of its column.
          refine and_congr_right fun hl ↦ ?_
          rw [zipWith_fill_set hc (hl.not_mem hmem)]

variable {ms ms' : List (Option String × Tree)}

theorem readMembers_initial_eq_some (h : Table shape initial view columns) {row : List β} :
    (shape.readMembers [] initial (Tree.members ms)).toOption.map view = some row ↔
      Legible (columns.map Column.name) [] ms ∧
        columns.map (fun c ↦ c.fill ms c.absent) = row.map some := by
  rw [h.readMembers_eq_some List.nodup_nil, h.view_initial, List.zipWith_map_right,
    List.zipWith_self]

section Read

variable {shape : ℕ → Shape Node σ} (h : ∀ room, Table (shape room) initial view columns)

include h

theorem read_object_eq_some {room : ℕ} {record : σ} :
    (Shape.read shape initial (room + 1) (Tree.object ms).node).toOption = some record ↔
      Legible (columns.map Column.name) [] ms ∧
        columns.map (fun c ↦ c.fill ms c.absent) = (view record).map some := by
  have hread : Shape.read shape initial (room + 1) (Tree.object ms).node =
      (shape room).readMembers [] initial (Tree.members ms) := rfl
  rw [hread, ← (h room).readMembers_initial_eq_some, Option.map_eq_some_iff]
  constructor
  · exact fun hrecord ↦ ⟨record, hrecord, rfl⟩
  · rintro ⟨record', hrecord, hview⟩
    rwa [← (h room).injective hview]

theorem read_list (ts : List Tree) (room : ℕ) :
    (Shape.read shape initial room (Tree.list ts).node).toOption =
      if ts.length ≤ columns.length then
        (Shape.read shape initial room
          (Tree.object (positional (columns.map Column.name) ts)).node).toOption
      else none := by
  cases room with
  | zero => exact (ite_self _).symm
  | succ room =>
    have hnames := (h room).enters.names_eq
    have hnodup : ((shape room).fields.map Field.name).Nodup := hnames ▸ (h room).nodup
    have hlength : (shape room).fields.length = columns.length := by
      simpa using congrArg List.length hnames
    have hread := toOption_readElements hnodup (h room).optional (List.Subset.refl _) hnodup
      (fun _ _ ↦ List.not_mem_nil) 0 initial ts
    rwa [hnames, hlength] at hread

end Read

end Table

end Shape

end ColumnFunctions.Json
