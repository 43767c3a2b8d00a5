import ColumnFunctions.Proofs.Record.Rows

namespace ColumnFunctions

open Json

namespace EventRecord

def layout : Layout :=
  [("event_id", .text), ("timestamp", .integer .long), ("event_type", .text), ("unique_id", .text),
    ("device_id", .text), ("platform", .text), ("os_version", .text), ("network_type", .text),
    ("screen_height", .integer .short), ("screen_width", .integer .short),
    ("zone_offset", .integer .short), ("system_language", .text), ("country_code", .text),
    ("sdk_version", .text), ("app_version", .text), ("app_id", .text)]

def values (r : EventRecord) : List Value :=
  [.ofText? r.eventId, .ofInt r.timestamp.toInt, .ofText? r.eventType, .ofText? r.uniqueId,
    .ofText? r.deviceId, .ofText? r.platform, .ofText? r.osVersion, .ofText? r.networkType,
    .ofInt r.screenHeight.toInt, .ofInt r.screenWidth.toInt, .ofInt r.zoneOffset.toInt,
    .ofText? r.systemLanguage, .ofText? r.countryCode, .ofText? r.sdkVersion,
    .ofText? r.appVersion, .ofText? r.appId]

theorem values_injective : Function.Injective values := by
  intro r r' h
  cases r
  cases r'
  simp only [values, List.cons.injEq, and_true, Value.ofText?_inj, Value.ofInt_inj, Int64.toInt_inj,
    Int32.toInt_inj] at h
  simpa only [mk.injEq] using h

theorem values_holds (r : EventRecord) :
    List.Forall₂ (fun field v ↦ field.2.Holds v) layout r.values := by
  have text (name : String) (s : Option String) : (name, Kind.text).2.Holds (.ofText? s) := ⟨s, rfl⟩
  have long (name : String) (n : Int64) :
      (name, Kind.integer .long).2.Holds (.ofInt n.toInt) := ⟨_, Width.fits_toInt64 n, rfl⟩
  have short (name : String) (n : Int32) :
      (name, Kind.integer .short).2.Holds (.ofInt n.toInt) := ⟨_, Width.fits_toInt32 n, rfl⟩
  exact .cons (text _ _) <| .cons (long _ _) <| .cons (text _ _) <| .cons (text _ _) <|
    .cons (text _ _) <| .cons (text _ _) <| .cons (text _ _) <| .cons (text _ _) <|
    .cons (short _ _) <| .cons (short _ _) <| .cons (short _ _) <| .cons (text _ _) <|
    .cons (text _ _) <| .cons (text _ _) <| .cons (text _ _) <| .cons (text _ _) .nil

section Fields

variable (room : ℕ) {i : ℕ} {name : String}

theorem textField_enters {set : Option String → EventRecord → EventRecord}
    (hset : ∀ s r, values (set s r) = (values r).set i (.ofText? s)) (t : Tree) (r : EventRecord) :
    ((textField (Scalar.ofNode? room) name set).read t.node).toOption.map
        (fun change ↦ values (change r)) =
      ((Kind.text.column name).enter t).map (r.values.set i) := by
  simp only [textField, toOption_bind, Scalar.toOption_ofNode?_node, toOption_pure, Kind.column]
  cases Scalar.ofTree? t with
  | none => rfl
  | some s => exact congrArg some (hset _ r)

theorem integerField_enters {α : Type} [OfNat α 0] {convert : Scalar → Except Misfit α}
    {toInt : α → ℤ} {w : Width} (hzero : toInt 0 = 0)
    (hconvert : ∀ s, w.read? s = (convert s).toOption.map toInt)
    {set : α → EventRecord → EventRecord}
    (hset : ∀ n r, values (set n r) = (values r).set i (.ofInt (toInt n))) (t : Tree)
    (r : EventRecord) :
    ((integerField (Scalar.ofNode? room) convert name set).read t.node).toOption.map
        (fun change ↦ values (change r)) =
      (((Kind.integer w).column name).enter t).map (r.values.set i) := by
  simp only [integerField, toOption_bind, Scalar.toOption_ofNode?_node, Kind.column]
  rcases Scalar.ofTree? t with _ | _ | s
  · rfl
  · have hset := hset 0 r
    rw [hzero] at hset
    exact congrArg some hset
  · rw [Option.bind_some, Option.bind_some, Kind.enter, hconvert]
    dsimp only
    cases convert s with
    | error m => rfl
    | ok n => exact congrArg some (hset n r)

theorem enters : Shape.Enters values 0 (shape (Scalar.ofNode? room)).fields layout.columns := by
  have text {i : ℕ} {name : String} := @textField_enters room i name
  have long {i : ℕ} {name : String} :=
    @integerField_enters room i name Int64 _ Scalar.toInt64 Int64.toInt .long rfl Width.read?_long
  have short {i : ℕ} {name : String} :=
    @integerField_enters room i name Int32 _ Scalar.toInt32 Int32.toInt .short rfl Width.read?_short
  exact .cons rfl (text fun _ _ ↦ rfl) <| .cons rfl (long fun _ _ ↦ rfl) <|
    .cons rfl (text fun _ _ ↦ rfl) <| .cons rfl (text fun _ _ ↦ rfl) <|
    .cons rfl (text fun _ _ ↦ rfl) <| .cons rfl (text fun _ _ ↦ rfl) <|
    .cons rfl (text fun _ _ ↦ rfl) <| .cons rfl (text fun _ _ ↦ rfl) <|
    .cons rfl (short fun _ _ ↦ rfl) <| .cons rfl (short fun _ _ ↦ rfl) <|
    .cons rfl (short fun _ _ ↦ rfl) <| .cons rfl (text fun _ _ ↦ rfl) <|
    .cons rfl (text fun _ _ ↦ rfl) <| .cons rfl (text fun _ _ ↦ rfl) <|
    .cons rfl (text fun _ _ ↦ rfl) <| .cons rfl (text fun _ _ ↦ rfl) <| .nil _

end Fields

theorem table (room : ℕ) :
    Shape.Table (shape (Scalar.ofNode? room)) {} values layout.columns where
  enters := enters room
  nodup := by decide
  optional := rfl
  length_view _ := rfl
  view_initial := rfl
  injective := values_injective

theorem rows : Rows EventRecord.ofNode toValue layout false values where
  byTree := byTree_ofNode
  nodup := by decide
  closed _ := rfl
  other room t hobject hlist := by
    cases t with
    | object ms => exact absurd rfl (hobject ms)
    | list ts => exact absurd rfl (hlist ts)
    | null | bool | number | string => rfl
  object room ms row := by
    refine (table room).readMembers_initial_eq_some.trans ?_
    exact and_congr_right fun _ ↦ (and_iff_right (nomatch ·)).symm
  list room ts := Shape.Table.read_list table ts room
  injective := values_injective
  toValue_eq _ := rfl
  holds := values_holds

end EventRecord

namespace UserAttribute

def layout : Layout := [("value", .text), ("set_timestamp", .integer .long)]

def values (a : UserAttribute) : List Value := [.ofText? a.value, .ofInt a.setTimestamp.toInt]

theorem values_injective : Function.Injective values := by
  intro a a' h
  cases a
  cases a'
  simpa [values, Value.ofText?_inj, Value.ofInt_inj, Int64.toInt_inj] using h

namespace Draft

def column (name : String) : Column (Option (Option Scalar)) where
  name := name
  absent := none
  enter t := (Scalar.ofTree? t).map some

def columns : List (Column (Option (Option Scalar))) := layout.names.map column

def values (d : Draft) : List (Option (Option Scalar)) := [d.value, d.setTimestamp]

theorem values_injective : Function.Injective values := by
  intro d d' h
  cases d
  cases d'
  simpa [values] using h

theorem table (room : ℕ) : Shape.Table (shape (Scalar.ofNode? room)) {} values columns where
  enters := by
    refine .cons rfl ?_ (.cons rfl ?_ (.nil _))
    all_goals
      intro t d
      simp only [toOption_bind, Scalar.toOption_ofNode?_node, toOption_pure, column]
      cases Scalar.ofTree? t <;> rfl
  nodup := by decide
  optional := rfl
  length_view _ := rfl
  view_initial := rfl
  injective := values_injective

theorem fill_kind (kind : Kind) (name : String) (ms : List (Option String × Tree)) :
    (kind.column name).fill ms kind.absent =
      ((column name).fill ms none).bind fun entry ↦ kind.enter entry.join := by
  rw [Column.fill, Column.fill, Kind.column, column]
  cases ms.lookup (some name) with
  | none => exact kind.enter_none.symm
  | some t => cases h : Scalar.ofTree? t <;> simp [h]

theorem toOption_ofDraft (d : Draft) :
    (ofDraft d).toOption.map UserAttribute.values =
      if d.value = none ∧ d.setTimestamp = none then none
      else (Kind.text.enter d.value.join).bind fun v ↦
        ((Kind.integer .long).enter d.setTimestamp.join).map fun n ↦ [v, n] := by
  obtain ⟨value, time⟩ := d
  by_cases h : value = none ∧ time = none
  · obtain ⟨rfl, rfl⟩ := h
    rfl
  · rw [if_neg h, ofDraft, if_neg (by simpa using h)]
    dsimp only
    cases time.join with
    | none => rfl
    | some s =>
      have htime : (Kind.integer .long).enter (some s) =
          (s.toInt64.toOption.map Int64.toInt).map .ofInt := by
        rw [← Width.read?_long]
        rfl
      rw [htime]
      dsimp only
      cases s.toInt64 <;> rfl

theorem fill_eq_some_none {name : String} {ms : List (Option String × Tree)} :
    (column name).fill ms none = some none ↔ some name ∉ ms.map Prod.fst := by
  rw [← lookup_eq_none, Column.fill, column]
  cases ms.lookup (some name) with
  | none => simp
  | some t => cases h : Scalar.ofTree? t <;> simp

end Draft

theorem toOption_ofNode (room : ℕ) (n : Node) :
    (ofNode room n).toOption =
      (Shape.read (fun room ↦ shape (Scalar.ofNode? room)) {} room n).toOption.bind
        fun d ↦ (ofDraft d).toOption := by
  rw [ofNode, toOption_bind]
  simp only [toOption_mapError]

theorem object_iff (room : ℕ) (ms : List (Option String × Tree)) (row : List Value) :
    (ofNode (room + 1) (Tree.object ms).node).toOption.map values = some row ↔
      Legible layout.names [] ms ∧ AnyNamed layout.names ms ∧
        layout.columns.map (fun c ↦ c.fill ms c.absent) = row.map some := by
  -- The draft tells a member with null from one that is not there, and the row does not.
  let value := (Draft.column "value").fill ms none
  let time := (Draft.column "set_timestamp").fill ms none
  have hdraft : ∀ d, (Shape.read (fun room ↦ shape (Scalar.ofNode? room)) {} (room + 1)
      (Tree.object ms).node).toOption = some d ↔
      Legible layout.names [] ms ∧ value = some d.value ∧ time = some d.setTimestamp := by
    intro d
    rw [Shape.Table.read_object_eq_some Draft.table]
    simp [Draft.columns, Draft.values, layout, Layout.names, Draft.column, value, time]
  have hnamed : AnyNamed layout.names ms ↔ ¬ (value = some none ∧ time = some none) := by
    rw [Draft.fill_eq_some_none, Draft.fill_eq_some_none, not_and_or, not_not, not_not]
    simp only [AnyNamed, layout, Layout.names, List.map_cons, List.map_nil, List.mem_cons,
      List.not_mem_nil, or_false, exists_eq_or_imp, exists_eq_left]
  have hcolumns : layout.columns.map (fun c ↦ c.fill ms c.absent) =
      [value.bind fun entry ↦ Kind.text.enter entry.join,
        time.bind fun entry ↦ (Kind.integer .long).enter entry.join] := by
    rw [← Draft.fill_kind, ← Draft.fill_kind]
    rfl
  rw [toOption_ofNode, Option.map_bind, Option.bind_eq_some_iff, hnamed, hcolumns]
  simp only [Function.comp_apply, Draft.toOption_ofDraft]
  clear_value value time
  constructor
  · rintro ⟨⟨v, s⟩, hread, hrow⟩
    obtain ⟨hl, rfl, rfl⟩ := (hdraft _).1 hread
    split at hrow
    · cases hrow
    · next hne =>
      refine ⟨hl, by simpa using hne, ?_⟩
      obtain ⟨x, hx, hrow⟩ := Option.bind_eq_some_iff.1 hrow
      obtain ⟨y, hy, rfl⟩ := Option.map_eq_some_iff.1 hrow
      simp [hx, hy]
  · rintro ⟨hl, hne, hrow⟩
    obtain ⟨x, y, rfl⟩ : ∃ x y, row = [x, y] := by
      have hlength := congrArg List.length hrow
      simpa [List.length_eq_two] using hlength.symm
    simp only [List.map_cons, List.map_nil, List.cons.injEq, Option.bind_eq_some_iff, and_true]
      at hrow
    obtain ⟨⟨v, rfl, hv⟩, s, rfl, hs⟩ := hrow
    refine ⟨⟨v, s⟩, (hdraft _).2 ⟨hl, rfl, rfl⟩, ?_⟩
    rw [if_neg (by simpa using hne), hv, hs]
    rfl

theorem rows : Rows UserAttribute.ofNode toValue layout true values where
  byTree := byTree_ofNode
  nodup := by decide
  closed _ := rfl
  other room t hobject hlist := by
    cases t with
    | object ms => exact absurd rfl (hobject ms)
    | list ts => exact absurd rfl (hlist ts)
    | null | bool | number | string => rfl
  object room ms row := by
    rw [object_iff]
    exact and_congr_right fun _ ↦ and_congr_left fun _ ↦
      ⟨fun hnamed _ ↦ hnamed, fun hnamed ↦ hnamed rfl⟩
  list room ts := by
    rw [toOption_ofNode, Shape.Table.read_list Draft.table]
    split
    · rw [if_pos (by assumption), toOption_ofNode]
      rfl
    · rw [if_neg (by assumption)]
      rfl
  injective := values_injective
  toValue_eq _ := rfl
  holds a := .cons ⟨_, rfl⟩ (.cons ⟨_, Width.fits_toInt64 _, rfl⟩ .nil)

end UserAttribute

end ColumnFunctions
