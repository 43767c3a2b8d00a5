import ColumnFunctions.Proofs.Json.Columns
import Mathlib.Data.List.Pairwise

namespace ColumnFunctions.Json

variable {σ : Type}

def Field.Commutes (field field' : Field Node σ) : Prop :=
  ∀ ⦃n n' : Node⦄ ⦃change change' : σ → σ⦄, field.read n = .ok change →
    field'.read n' = .ok change' → ∀ record, change (change' record) = change' (change record)

instance Field.symm_commutes : Std.Symm (Field.Commutes (σ := σ)) where
  symm _ _ h _ _ _ _ hread hread' record := (h hread' hread record).symm

theorem Field.filled_commutes {α β : Type} {name name' : String}
    {read : Node → Except Complaint α} {read' : Node → Except Complaint β} {set : α → σ → σ}
    {set' : β → σ → σ} (h : ∀ x y record, set x (set' y record) = set' y (set x record)) :
    (Field.filled name read set).Commutes (Field.filled name' read' set') := by
  intro n n' change change' hread hread' record
  rw [← toOption_eq_some, filled, toOption_map, Option.map_eq_some_iff] at hread hread'
  obtain ⟨x, -, rfl⟩ := hread
  obtain ⟨y, -, rfl⟩ := hread'
  exact h x y record

namespace Shape

variable {shape : Shape Node σ} {seen : List String} {ms ms' : List (Option String × Tree)}

def Independent (shape : Shape Node σ) : Prop := shape.fields.Pairwise Field.Commutes

def change (shape : Shape Node σ) (record : σ) (m : Option String × Tree) : σ :=
  match (m.1.bind shape.field?).bind fun field ↦ (field.read m.2.node).toOption with
  | some change => change record
  | none => record

/-- Members that belong to all fields whose names have not been seen, and can be read. -/
structure Accepts (shape : Shape Node σ) (seen : List String) (ms : List (Option String × Tree)) :
    Prop where
  legible : Legible (shape.fields.map Field.name) seen ms
  read : ∀ {key t field}, (some key, t) ∈ ms → shape.field? key = some field →
    ∃ change, field.read t.node = .ok change
  complete : ∀ field ∈ shape.fields, field.name ∈ seen ∨ some field.name ∈ ms.map Prod.fst

/-- Members are read by making one change after the other. -/
theorem Accepts.readMembers (h : shape.Accepts seen ms) (record : σ) :
    (shape.readMembers seen record (Tree.members ms)).toOption =
      some (ms.foldl shape.change record) := by
  induction ms generalizing seen record with
  | nil =>
    have hnames : shape.checkNames seen = .ok () :=
      checkNames_of_forall fun field hf ↦ (h.complete field hf).resolve_right List.not_mem_nil
    rw [Tree.members, readMembers_close, hnames]
    rfl
  | cons m ms ih =>
    obtain ⟨key, t⟩ := m
    cases key with
    | none => exact absurd h.legible not_legible_none
    | some key =>
      have hread : ∀ {key t field}, (some key, t) ∈ ms → shape.field? key = some field →
          ∃ change, field.read t.node = .ok change :=
        fun hmem ↦ h.read (List.mem_cons_of_mem _ hmem)
      rw [Tree.members, readMembers_cons, Tree.toOption_orIssue, Option.bind_some, List.foldl_cons]
      cases hf : shape.field? key with
      | none =>
        have hkey := not_mem_names_of_field? hf
        have hrest : shape.Accepts seen ms := by
          refine ⟨(legible_cons_of_not_mem hkey).1 h.legible, hread, fun field hfield ↦ ?_⟩
          refine (h.complete field hfield).imp_right fun hmem ↦ ?_
          rcases List.mem_cons.1 hmem with heq | hmem
          · exact absurd (Option.some.inj heq ▸ List.mem_map_of_mem hfield) hkey
          · exact hmem
        have hsame : shape.change record (some key, t) = record := by
          rw [change, Option.bind_some, hf]
          rfl
        dsimp only
        rw [Tree.tree?_node, Option.bind_some, ih hrest, hsame]
      | some field =>
        have hkey := mem_names_of_field? hf
        have hseen : key ∉ seen := fun hmem ↦ not_legible_of_mem hkey hmem h.legible
        obtain ⟨change, hchange⟩ := h.read List.mem_cons_self hf
        have hrest : shape.Accepts (key :: seen) ms := by
          refine ⟨legible_cons.1 h.legible, hread, fun field hfield ↦ ?_⟩
          rcases h.complete field hfield with hmem | hmem
          · exact .inl (List.mem_cons_of_mem _ hmem)
          · rcases List.mem_cons.1 hmem with heq | hmem
            · exact .inl (Option.some.inj heq ▸ List.mem_cons_self)
            · exact .inr hmem
        have hnext : shape.change record (some key, t) = change record := by
          rw [Shape.change, Option.bind_some, hf, Option.bind_some, hchange]
          rfl
        simp only [if_neg hseen, hchange, toOption_ok, Option.bind_some, ih hrest, hnext]

theorem Accepts.extends (h : shape.Accepts [] ms)
    (he : Extends (shape.fields.map Field.name) ms ms') : shape.Accepts [] ms' where
  legible := he.legible_iff.2 h.legible
  read hmem hf := h.read ((he.mem_iff (mem_names_of_field? hf)).1 hmem) hf
  complete field hfield := by
    refine (h.complete field hfield).imp_right fun hmem ↦ ?_
    rw [← List.count_pos_iff, he.count_eq (List.mem_map_of_mem hfield)]
    exact List.count_pos_iff.2 hmem

theorem change_cases (shape : Shape Node σ) (m : Option String × Tree) :
    (∀ record, shape.change record m = record) ∨ ∃ key field change, m.1 = some key ∧
      shape.field? key = some field ∧ field.read m.2.node = .ok change ∧
        ∀ record, shape.change record m = change record := by
  simp only [Shape.change]
  cases h : (m.1.bind shape.field?).bind fun field ↦ (field.read m.2.node).toOption with
  | none => exact .inl fun _ ↦ rfl
  | some change =>
    obtain ⟨field, hfield, hread⟩ := Option.bind_eq_some_iff.1 h
    obtain ⟨key, hkey, hfield⟩ := Option.bind_eq_some_iff.1 hfield
    exact .inr ⟨key, field, change, hkey, hfield, toOption_eq_some.1 hread, fun _ ↦ rfl⟩

theorem Accepts.change_comm (h : shape.Accepts [] ms) (hi : shape.Independent)
    {m m' : Option String × Tree} (hm : m ∈ ms) (hm' : m' ∈ ms) (record : σ) :
    shape.change (shape.change record m) m' = shape.change (shape.change record m') m := by
  rcases shape.change_cases m with hsame | ⟨key, field, change, hkey, hfield, hread, hchange⟩
  · rw [hsame, hsame]
  rcases shape.change_cases m' with hsame |
    ⟨key', field', change', hkey', hfield', hread', hchange'⟩
  · rw [hsame, hsame]
  by_cases heq : key = key'
  · subst heq
    -- The key comes once, so the two are one member.
    have hcount : (ms.map Prod.fst).count (some key) ≤ 1 :=
      h.legible.2 key (mem_names_of_field? hfield)
    have hlookup := (lookup_eq_some_iff hcount).2 (hkey ▸ hm : (some key, m.2) ∈ ms)
    have hlookup' := (lookup_eq_some_iff hcount).2 (hkey' ▸ hm' : (some key, m'.2) ∈ ms)
    have hmember : m = m' :=
      Prod.ext (hkey.trans hkey'.symm) (Option.some.inj (hlookup.symm.trans hlookup'))
    rw [hmember]
  · have hne : field ≠ field' := by
      rintro rfl
      exact heq ((name_of_field? hfield).symm.trans (name_of_field? hfield'))
    have hcommutes := hi.forall (field?_mem hfield) (field?_mem hfield') hne
    rw [hchange, hchange', hchange', hchange]
    exact (hcommutes hread hread' record).symm

theorem Accepts.foldl_extends (h : shape.Accepts [] ms) (hi : shape.Independent)
    (he : Extends (shape.fields.map Field.name) ms ms') (record : σ) :
    ms'.foldl shape.change record = ms.foldl shape.change record := by
  have h' := h.extends he
  obtain ⟨more, hmore, hperm⟩ := he
  have hmoved := hperm.foldl_eq' (fun _ hm _ hm' ↦ h'.change_comm hi hm hm') record
  have hothers : ∀ record, more.foldl shape.change record = record := by
    clear hperm hmoved
    intro record
    induction more with
    | nil => rfl
    | cons m more ih =>
      rw [List.forall_mem_cons] at hmore
      obtain ⟨⟨key, hkey, hname⟩, hmore⟩ := hmore
      rcases shape.change_cases m with hsame | ⟨key', field, _, hkey', hfield, -⟩
      · rw [List.foldl_cons, hsame, ih hmore]
      · obtain rfl : key = key' := Option.some.inj (hkey.symm.trans hkey')
        exact absurd (mem_names_of_field? hfield) hname
  rw [hmoved, List.foldl_append, hothers]

section Restores

variable {fields : List (Field Node σ)} {members : List (String × Value)} {record record' : σ}

theorem Restores.names_eq (h : Restores fields members record record') :
    members.map Prod.fst = fields.map Field.name := by
  induction h with
  | nil => rfl
  | cons _ _ _ ih => rw [List.map_cons, List.map_cons, ih]

theorem Restores.keys_eq (h : Restores fields members record record') :
    (Value.memberTrees members).map Prod.fst = (fields.map Field.name).map some := by
  induction h with
  | nil => rfl
  | cons _ _ _ ih => rw [Value.memberTrees, List.map_cons, List.map_cons, List.map_cons, ih]

theorem Restores.exists_field (h : Restores fields members record record') {key : String} {t : Tree}
    (hm : (some key, t) ∈ Value.memberTrees members) :
    ∃ field ∈ fields, field.name = key ∧ ∃ change, field.read t.node = .ok change := by
  induction h with
  | nil => cases hm
  | @cons field fields v members record record' change hfield _ ih =>
    rcases List.mem_cons.1 hm with heq | hm
    · cases heq
      exact ⟨field, List.mem_cons_self, rfl, change, hfield.2⟩
    · obtain ⟨f, hf, hread⟩ := ih hm
      exact ⟨f, List.mem_cons_of_mem _ hf, hread⟩

theorem Restores.accepts (h : Restores shape.fields members record record')
    (hn : (shape.fields.map Field.name).Nodup) : shape.Accepts [] (Value.memberTrees members) := by
  refine ⟨⟨fun m hm hnone ↦ ?_, fun name _ ↦ ?_⟩, fun hm hfield ↦ ?_, fun field hfield ↦ ?_⟩
  · have hkey : m.1 ∈ (Value.memberTrees members).map Prod.fst := List.mem_map_of_mem hm
    rw [hnone, h.keys_eq] at hkey
    simp at hkey
  · rw [h.keys_eq, List.count_nil, Nat.add_zero]
    have hkeys : ((shape.fields.map Field.name).map some).Nodup :=
      hn.map fun _ _ ↦ Option.some.inj
    exact List.nodup_iff_count_le_one.1 hkeys _
  · obtain ⟨field, hmem, rfl, hread⟩ := h.exists_field hm
    obtain rfl := Option.some.inj ((field?_eq_some hn hmem).symm.trans hfield)
    exact hread
  · rw [h.keys_eq]
    exact .inr (List.mem_map_of_mem (List.mem_map_of_mem hfield))

variable {shape : ℕ → Shape Node σ} {initial : σ}

/-- A record is restored from an object with all its fields in any order, and any other members. -/
theorem Restores.read_extends {room : ℕ} (hn : ((shape room).fields.map Field.name).Nodup)
    (hi : (shape room).Independent)
    (h : Restores (shape room).fields members initial record)
    (he : Extends (members.map Prod.fst) (Value.memberTrees members) ms) :
    (Shape.read shape initial (room + 1) (Tree.object ms).node).toOption = some record := by
  have haccepts := h.accepts hn
  have hrecord : (shape room).readMembers [] initial (Tree.members (Value.memberTrees members)) =
      .ok record := h.read hn
  rw [← toOption_eq_some, haccepts.readMembers, Option.some.injEq] at hrecord
  rw [h.names_eq] at he
  have hread := (haccepts.extends he).readMembers initial
  rwa [haccepts.foldl_extends hi he, hrecord] at hread

end Restores

end Shape

/-- The texts of an object that has the members of another in any order, and among them any others
with names of their own. Blanks may stand wherever a text may have them. -/
def Value.Restates (v : Value) (text : String) : Prop :=
  ∃ members ms, v = .object members ∧ Extends (members.map Prod.fst) (memberTrees members) ms ∧
    SpellsText (.object ms) text.toList

theorem Shape.Restores.readDocument_restates {shape : ℕ → Shape Node σ} {initial record : σ}
    {members : List (String × Value)} (htree : ∀ room, (shape room).ByTree)
    (hn : ((shape 126).fields.map Field.name).Nodup) (hi : (shape 126).Independent)
    (h : Restores (shape 126).fields members initial record) {text : String}
    (ht : (Value.object members).Restates text) :
    Json.readDocument (Shape.read shape initial) text = .ok record := by
  obtain ⟨_, ms, ⟨⟩, he, ht⟩ := ht
  rw [readDocument_eq_ok_of_spells (byTree_read htree initial maxDepth) ht]
  exact h.read_extends hn hi he

end ColumnFunctions.Json
