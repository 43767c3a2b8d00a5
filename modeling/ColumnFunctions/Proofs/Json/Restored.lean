import ColumnFunctions.Proofs.Json.Written

namespace ColumnFunctions.Json

theorem Value.exactAll_iff {vs : List Value} : ExactAll vs ↔ ∀ v ∈ vs, v.Exact := by
  induction vs with
  | nil => simp [ExactAll]
  | cons v vs ih => rw [ExactAll, ih, List.forall_mem_cons]

section Lists

variable {α : Type} {toValue : α → Value} {xs : List α}

theorem readEach_written {read : Node → Except Complaint α}
    (h : ∀ x ∈ xs, read (toValue x).tree.node = .ok x) (i : Nat) :
    readEach read i (Tree.elements (Value.trees (xs.map toValue))) = .ok xs := by
  induction xs generalizing i with
  | nil => rfl
  | cons x xs ih =>
    rw [List.forall_mem_cons] at h
    rw [List.map_cons, Value.trees, Tree.elements, readEach, h.1, ih h.2]
    rfl

theorem readList_written {read : Nat → Node → Except Complaint α} {room : Nat}
    (h : ∀ x ∈ xs, read room (toValue x).tree.node = .ok x) :
    readList read (room + 1) (Value.list (xs.map toValue)).tree.node = .ok xs :=
  readEach_written h 0

end Lists

variable {σ : Type}

def Field.Restores (field : Field Node σ) (v : Value) (change : σ → σ) : Prop :=
  v.Exact ∧ field.read v.tree.node = .ok change

theorem Field.filled_restores {α : Type} {read : Node → Except Complaint α} {v : Value} {x : α}
    (hv : v.Exact) (hx : read v.tree.node = .ok x) (name : String) (set : α → σ → σ) :
    (Field.filled name read set).Restores v (set x) :=
  ⟨hv, congrArg (Except.map set) hx⟩

namespace Shape

/-- Members that belong to fields in order and lead from one record to another. -/
inductive Restores : List (Field Node σ) → List (String × Value) → σ → σ → Prop
  | nil (record : σ) : Restores [] [] record record
  | cons {field : Field Node σ} {fields : List (Field Node σ)} {v : Value}
      {members : List (String × Value)} {record record' : σ} (change : σ → σ)
      (h : field.Restores v change)
      (hs : Restores fields members (change record) record') :
      Restores (field :: fields) ((field.name, v) :: members) record record'

theorem field?_eq_some {shape : Shape Node σ} (hn : (shape.fields.map Field.name).Nodup)
    {field : Field Node σ} (hf : field ∈ shape.fields) : shape.field? field.name = some field := by
  rw [field?]
  generalize shape.fields = fields at hn hf
  induction fields with
  | nil => cases hf
  | cons f fields ih =>
    rw [List.map_cons, List.nodup_cons] at hn
    rcases List.mem_cons.1 hf with rfl | hf
    · rw [List.find?_cons_of_pos (by simp)]
    · have hne : f.name ≠ field.name := by
        intro h
        exact hn.1 (h ▸ List.mem_map_of_mem hf)
      rw [List.find?_cons_of_neg (by simpa using hne), ih hn.2 hf]

theorem checkNames_of_forall {shape : Shape Node σ} {seen : List String}
    (h : ∀ field ∈ shape.fields, field.name ∈ seen) : shape.checkNames seen = .ok () := by
  have hfind : shape.fields.find? (·.name ∉ seen) = none := by
    rw [List.find?_eq_none]
    intro field hf
    simpa using h field hf
  rw [checkNames, hfind]
  exact ite_self _

/-- The members that are left, once those with a name in `seen` have been read. -/
theorem Restores.readMembers {shape : Shape Node σ} (hn : (shape.fields.map Field.name).Nodup)
    {fields : List (Field Node σ)} {members : List (String × Value)} {record record' : σ}
    (h : Restores fields members record record') (hf : fields ⊆ shape.fields)
    (hd : (fields.map Field.name).Nodup) (seen : List String)
    (hs : ∀ field ∈ fields, field.name ∉ seen)
    (hall : ∀ field ∈ shape.fields, field.name ∈ seen ∨ field ∈ fields) :
    (shape.readMembers seen record (Tree.members (Value.memberTrees members))).toOption =
      some record' := by
  induction h generalizing seen with
  | nil record =>
    have hnames : shape.checkNames seen = .ok () :=
      checkNames_of_forall fun field hf ↦ (hall field hf).resolve_right List.not_mem_nil
    rw [Value.memberTrees, Tree.members, readMembers_close, hnames]
    rfl
  | @cons field fields v members record record' change h _ ih =>
    rw [List.map_cons, List.nodup_cons] at hd
    have hfield : shape.field? field.name = some field := field?_eq_some hn (hf List.mem_cons_self)
    have hseen : field.name ∉ seen := hs field List.mem_cons_self
    rw [Value.memberTrees, Tree.members, readMembers_cons]
    simp only [Tree.toOption_orIssue, Option.bind_some, hfield, if_neg hseen, h.2, toOption_ok]
    refine ih (fun f hmem ↦ hf (.tail _ hmem)) hd.2 _ (fun f hmem ↦ ?_) fun f hmem ↦ ?_
    · rw [List.mem_cons, not_or]
      refine ⟨?_, hs f (.tail _ hmem)⟩
      intro heq
      exact hd.1 (heq ▸ List.mem_map_of_mem hmem)
    · rcases hall f hmem with hname | hleft
      · exact .inl (.tail _ hname)
      · rcases List.mem_cons.1 hleft with rfl | hleft
        · exact .inl List.mem_cons_self
        · exact .inr hleft

variable {members : List (String × Value)}

theorem Restores.exact {fields : List (Field Node σ)} {record record' : σ}
    (h : Restores fields members record record') : (Value.object members).Exact := by
  induction h with
  | nil => trivial
  | cons _ h _ ih => exact ⟨h.1, ih⟩

variable {shape : Nat → Shape Node σ} {initial record : σ}

/-- A record is restored from an object with all its fields in order. -/
theorem Restores.read {room : Nat} (hn : ((shape room).fields.map Field.name).Nodup)
    (h : Restores (shape room).fields members initial record) :
    Shape.read shape initial (room + 1) (Value.object members).tree.node = .ok record := by
  rw [← toOption_eq_some, Value.tree, Tree.node, Shape.read]
  exact h.readMembers hn (List.Subset.refl _) hn [] (fun _ _ ↦ List.not_mem_nil)
    fun _ hf ↦ .inr hf

theorem Restores.readDocument (htree : ∀ room, (shape room).ByTree)
    (hn : ((shape 126).fields.map Field.name).Nodup)
    (h : Restores (shape 126).fields members initial record) :
    Json.readDocument (Shape.read shape initial) (Value.object members).text = .ok record :=
  (Value.readDocument_text (byTree_read htree initial maxDepth) h.exact record).2 (h.read hn)

end Shape

end ColumnFunctions.Json
