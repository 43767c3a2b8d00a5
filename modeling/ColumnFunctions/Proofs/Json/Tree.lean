import ColumnFunctions.Json.Shape

namespace ColumnFunctions.Json

section Attempts

variable {ε ε' α β : Type}

@[simp] theorem toOption_ok (a : α) : (.ok a : Except ε α).toOption = some a := rfl

@[simp] theorem toOption_error (e : ε) : (.error e : Except ε α).toOption = none := rfl

@[simp] theorem toOption_bind (x : Except ε α) (f : α → Except ε β) :
    (x >>= f).toOption = x.toOption.bind fun a ↦ (f a).toOption := by
  cases x <;> rfl

@[simp] theorem toOption_pure (a : α) : (pure a : Except ε α).toOption = some a := rfl

@[simp] theorem toOption_throw (e : ε) : (throw e : Except ε α).toOption = none := rfl

@[simp] theorem toOption_map (f : α → β) (x : Except ε α) :
    (x.map f).toOption = x.toOption.map f := by
  cases x <;> rfl

@[simp] theorem toOption_functor_map (f : α → β) (x : Except ε α) :
    (f <$> x).toOption = x.toOption.map f :=
  toOption_map f x

@[simp] theorem toOption_mapError (f : ε → ε') (x : Except ε α) :
    (x.mapError f).toOption = x.toOption := by
  cases x <;> rfl

@[simp] theorem toOption_issue (x : Except Issue α) : (issue x).toOption = x.toOption :=
  toOption_mapError _ x

@[simp] theorem toOption_located (offset : Nat) (x : Except Complaint α) :
    (located offset x).toOption = x.toOption :=
  toOption_mapError _ x

@[simp] theorem toOption_part (step : Step) (after : Nat) (x : Except Complaint α) :
    (part step after x).toOption = x.toOption :=
  toOption_mapError _ x

theorem toOption_eq_some {x : Except ε α} {a : α} : x.toOption = some a ↔ x = .ok a := by
  cases x <;> simp

end Attempts

/-- What a text says, without places. A string of lone surrogates has no text, and a number that is
out of range no value. -/
inductive Tree
  | null
  | bool (b : Bool)
  | number (value : Option Number)
  | string (text : Option String)
  | list (elements : List Tree)
  | object (members : List (Option String × Tree))

mutual

def Node.tree? : Node → Option Tree
  | .null _ => some .null
  | .bool b _ => some (.bool b)
  | .number value _ => some (.number value.toOption)
  | .string text _ => some (.string text.toOption)
  | .list _ elements => elements.trees?.map .list
  | .object _ members => members.trees?.map .object
  | .broken _ => none

def Elements.trees? : Elements → Option (List Tree)
  | .close _ => some []
  | .broken _ => none
  | .cons _ node _ rest => node.tree?.bind fun t ↦ rest.trees?.map (t :: ·)

def Members.trees? : Members → Option (List (Option String × Tree))
  | .close _ => some []
  | .broken _ | .bare _ _ _ => none
  | .cons key _ node _ rest => node.tree?.bind fun t ↦ rest.trees?.map ((key.toOption, t) :: ·)

end

namespace Tree

def orIssue {α : Type} (cause : Cause) : Option α → Except Issue α
  | some x => .ok x
  | none => .error ⟨cause, 0⟩

@[simp] theorem toOption_orIssue {α : Type} (cause : Cause) (x : Option α) :
    (orIssue cause x).toOption = x := by
  cases x <;> rfl

mutual

def node : Tree → Node
  | .null => .null 0
  | .bool b => .bool b 0
  | .number value => .number (orIssue .numberOutOfRange value) 0
  | .string text => .string (orIssue .loneSurrogate text) 0
  | .list ts => .list 0 (elements ts)
  | .object ms => .object 0 (members ms)

def elements : List Tree → Elements
  | [] => .close 0
  | t :: ts => .cons 0 t.node 0 (elements ts)

def members : List (Option String × Tree) → Members
  | [] => .close 0
  | (key, t) :: ms => .cons (orIssue .loneSurrogate key) 0 t.node 0 (members ms)

end

mutual

@[simp] theorem tree?_node : ∀ t : Tree, t.node.tree? = some t
  | .null | .bool _ => rfl
  | .number _ | .string _ => by simp [node, Node.tree?]
  | .list ts => by simp [node, Node.tree?, trees?_elements ts]
  | .object ms => by simp [node, Node.tree?, trees?_members ms]

@[simp] theorem trees?_elements : ∀ ts : List Tree, (elements ts).trees? = some ts
  | [] => rfl
  | t :: ts => by simp [elements, Elements.trees?, tree?_node t, trees?_elements ts]

@[simp] theorem trees?_members :
    ∀ ms : List (Option String × Tree), (members ms).trees? = some ms
  | [] => rfl
  | (_, t) :: ms => by simp [members, Members.trees?, tree?_node t, trees?_members ms]

end

end Tree

def ByTree {α : Type} (read : Node → Except Complaint α) : Prop :=
  ∀ n, (read n).toOption = n.tree?.bind fun t ↦ (read t.node).toOption

mutual

theorem byTree_value (room : Nat) :
    ∀ n, (Value.ofNode room n).toOption = n.tree?.bind fun t ↦ (Value.ofNode room t.node).toOption
  | .null _ | .bool _ _ | .number _ _ | .string _ _ | .broken _ => by
    simp [Node.tree?, Tree.node, Value.ofNode]
  | .list _ es => by
    cases room with
    | zero => cases h : es.trees? <;> simp [Node.tree?, Tree.node, Value.ofNode, h]
    | succ room =>
      have hes := byTree_elements room es
      cases h : es.trees? <;> simp_all [Node.tree?, Tree.node, Value.ofNode]
  | .object _ ms => by
    cases room with
    | zero => cases h : ms.trees? <;> simp [Node.tree?, Tree.node, Value.ofNode, h]
    | succ room =>
      have hms := byTree_members room [] ms
      cases h : ms.trees? <;> simp_all [Node.tree?, Tree.node, Value.ofNode]

theorem byTree_elements (room : Nat) : ∀ es, (Value.ofElements room es).toOption =
    es.trees?.bind fun ts ↦ (Value.ofElements room (Tree.elements ts)).toOption
  | .close _ | .broken _ => by simp [Elements.trees?, Tree.elements, Value.ofElements]
  | .cons _ n _ es => by
    have hn := byTree_value room n
    have hes := byTree_elements room es
    cases h : n.tree? <;> cases h' : es.trees? <;>
      simp_all [Elements.trees?, Tree.elements, Value.ofElements]

theorem byTree_members (room : Nat) (members : List (String × Value)) :
    ∀ ms, (Value.ofMembers room members ms).toOption =
      ms.trees?.bind fun ts ↦ (Value.ofMembers room members (Tree.members ts)).toOption
  | .close _ | .broken _ | .bare _ _ _ => by simp [Members.trees?, Tree.members, Value.ofMembers]
  | .cons key _ n _ ms => by
    have hn := byTree_value room n
    have hms := fun members ↦ byTree_members room members ms
    cases h : n.tree? <;> cases h' : ms.trees? <;>
      simp_all [Members.trees?, Tree.members, Value.ofMembers]

end

section Readers

variable {α β : Type} {read : Node → Except Complaint α}

theorem ByTree.map (h : ByTree read) (f : α → β) : ByTree fun n ↦ (read n).map f := by
  intro n
  have hn := h n
  cases ht : n.tree? <;> simp_all

theorem ByTree.bind (h : ByTree read) (f : α → Except Complaint β) :
    ByTree fun n ↦ read n >>= f := by
  intro n
  have hn := h n
  cases ht : n.tree? <;> simp_all

theorem byTree_option (h : ByTree read) : ByTree (readOption read) := by
  intro n
  have hn := h n
  cases n with
  | null => rfl
  | bool | number | string | broken => simp_all [readOption, Node.tree?, Tree.node]
  | list _ es => cases ht : es.trees? <;> simp_all [readOption, Node.tree?, Tree.node]
  | object _ ms => cases ht : ms.trees? <;> simp_all [readOption, Node.tree?, Tree.node]

theorem readEach_elements (i : Nat) (ts : List Tree) :
    (readEach read i (Tree.elements ts)).toOption = ts.mapM fun t ↦ (read t.node).toOption := by
  induction ts generalizing i with
  | nil => rfl
  | cons t ts ih =>
    simp only [Tree.elements, readEach, toOption_bind, toOption_part, toOption_pure, ih,
      List.mapM_cons]
    rfl

theorem byTree_each (h : ByTree read) : ∀ (i : Nat) (es : Elements),
    (readEach read i es).toOption =
      es.trees?.bind fun ts ↦ (readEach read i (Tree.elements ts)).toOption
  | _, .close _ | _, .broken _ => rfl
  | i, .cons _ n _ es => by
    have hn := h n
    have hes := byTree_each h (i + 1) es
    cases ht : n.tree? <;> cases hts : es.trees? <;>
      simp_all [Elements.trees?, Tree.elements, readEach]

theorem byTree_list {read : Nat → Node → Except Complaint α} (h : ∀ room, ByTree (read room))
    (room : Nat) : ByTree (readList read room) := by
  intro n
  cases n with
  | list _ es =>
    cases room with
    | zero => cases ht : es.trees? <;> simp [readList, Node.tree?, Tree.node, ht]
    | succ room =>
      have hes := byTree_each (h room) 0 es
      cases ht : es.trees? <;> simp_all [readList, Node.tree?, Tree.node]
  | object _ ms => cases ht : ms.trees? <;> simp [readList, Node.tree?, Tree.node, ht]
  | null | bool | number | string | broken => rfl

theorem byTree_entries (h : ByTree read) : ∀ (entries : List (String × α)) (ms : Members),
    (readEntries read entries ms).toOption =
      ms.trees?.bind fun ts ↦ (readEntries read entries (Tree.members ts)).toOption
  | _, .close _ | _, .broken _ => rfl
  | _, .bare key _ _ => by simp [Members.trees?, readEntries]
  | entries, .cons key _ n _ ms => by
    have hn := h n
    have hms := fun entries ↦ byTree_entries h entries ms
    cases ht : n.tree? <;> cases hts : ms.trees? <;>
      simp_all [Members.trees?, Tree.members, readEntries]

theorem byTree_map {read : Nat → Node → Except Complaint α} (h : ∀ room, ByTree (read room))
    (room : Nat) : ByTree (readMap read room) := by
  intro n
  cases n with
  | object _ ms =>
    cases room with
    | zero => cases ht : ms.trees? <;> simp [readMap, Node.tree?, Tree.node, ht]
    | succ room =>
      have hms := byTree_entries (h room) [] ms
      cases ht : ms.trees? <;> simp_all [readMap, Node.tree?, Tree.node]
  | list _ es => cases ht : es.trees? <;> simp [readMap, Node.tree?, Tree.node, ht]
  | null | bool | number | string | broken => rfl

end Readers

mutual

theorem toOption_skip : ∀ n : Node, n.skip.toOption = n.tree?.map fun _ ↦ ()
  | .null _ | .bool _ _ | .number _ _ | .string _ _ | .broken _ => rfl
  | .list _ es => by
    have hes := toOption_elements_skip es
    cases ht : es.trees? <;> simp_all [Node.skip, Node.tree?]
  | .object _ ms => by
    have hms := toOption_members_skip ms
    cases ht : ms.trees? <;> simp_all [Node.skip, Node.tree?]

theorem toOption_elements_skip : ∀ es : Elements, es.skip.toOption = es.trees?.map fun _ ↦ ()
  | .close _ | .broken _ => rfl
  | .cons _ n _ es => by
    have hn := toOption_skip n
    have hes := toOption_elements_skip es
    simp only [Elements.skip, Elements.trees?]
    cases hs : n.skip <;> cases ht : n.tree? <;> cases hts : es.trees? <;> simp_all

theorem toOption_members_skip : ∀ ms : Members, ms.skip.toOption = ms.trees?.map fun _ ↦ ()
  | .close _ | .broken _ | .bare _ _ _ => rfl
  | .cons _ _ n _ ms => by
    have hn := toOption_skip n
    have hms := toOption_members_skip ms
    simp only [Members.skip, Members.trees?]
    cases hs : n.skip <;> cases ht : n.tree? <;> cases hts : ms.trees? <;> simp_all

end

namespace Shape

variable {σ : Type}

def ByTree (shape : Shape Node σ) : Prop := ∀ field ∈ shape.fields, Json.ByTree field.read

section Names

variable {shape : Shape Node σ} {name : String} {field : Field Node σ}

theorem field?_mem (h : shape.field? name = some field) : field ∈ shape.fields :=
  List.mem_of_find?_eq_some h

theorem name_of_field? (h : shape.field? name = some field) : field.name = name := by
  simpa using List.find?_some h

theorem mem_names_of_field? (h : shape.field? name = some field) :
    name ∈ shape.fields.map Field.name :=
  name_of_field? h ▸ List.mem_map_of_mem (field?_mem h)

theorem not_mem_names_of_field? (h : shape.field? name = none) :
    name ∉ shape.fields.map Field.name := by
  intro hmem
  obtain ⟨field, hfield, rfl⟩ := List.mem_map.1 hmem
  simpa using List.find?_eq_none.1 h field hfield

end Names

theorem readMembers_close (shape : Shape Node σ) (seen : List String) (record : σ) (stop : Nat) :
    (shape.readMembers seen record (.close stop)).toOption =
      (shape.checkNames seen).toOption.map fun _ ↦ record := by
  simp only [readMembers, toOption_bind, toOption_located, toOption_pure]
  cases (shape.checkNames seen).toOption <;> rfl

/-- A member is read into its field, of which there may be only one; a member without a field is
skipped. -/
theorem readMembers_cons (shape : Shape Node σ) (seen : List String) (record : σ)
    (key : Except Issue String) (afterKey : Nat) (n : Node) (after : Nat) (ms : Members) :
    (shape.readMembers seen record (.cons key afterKey n after ms)).toOption =
      key.toOption.bind fun k ↦
        match shape.field? k with
        | some field =>
          if k ∈ seen then none
          else (field.read n).toOption.bind fun change ↦
            (shape.readMembers (k :: seen) (change record) ms).toOption
        | none => n.tree?.bind fun _ ↦ (shape.readMembers seen record ms).toOption := by
  simp only [readMembers, toOption_bind, toOption_issue]
  cases key.toOption with
  | none => rfl
  | some k =>
    simp only [Option.bind_some]
    cases shape.field? k with
    | none =>
      simp only [toOption_bind, toOption_part, toOption_issue, toOption_skip]
      cases n.tree? <;> rfl
    | some field =>
      by_cases hk : k ∈ seen
      · simp [hk]
      · simp [hk]

theorem byTree_members {shape : Shape Node σ} (h : shape.ByTree) :
    ∀ (seen : List String) (record : σ) (ms : Members),
      (shape.readMembers seen record ms).toOption =
        ms.trees?.bind fun ts ↦ (shape.readMembers seen record (Tree.members ts)).toOption
  | _, _, .close _ => by
    simp only [Members.trees?, Option.bind_some, Tree.members, readMembers_close]
  | _, _, .broken _ => rfl
  | seen, _, .bare key _ _ => by
    simp only [readMembers, Members.trees?, Option.bind_none, toOption_bind, toOption_issue]
    cases key.toOption with
    | none => rfl
    | some k => by_cases hk : (shape.field? k).isSome ∧ k ∈ seen <;> simp [hk]
  | seen, record, .cons key _ n _ ms => by
    have hms := fun seen record ↦ byTree_members h seen record ms
    rw [readMembers_cons]
    simp only [Members.trees?]
    cases key.toOption with
    | none => cases n.tree? <;> cases ms.trees? <;> simp [Tree.members, readMembers_cons]
    | some k =>
      simp only [Option.bind_some]
      cases hf : shape.field? k with
      | none =>
        cases n.tree? <;> cases hts : ms.trees? <;>
          simp_all [Tree.members, readMembers_cons]
      | some field =>
        have hn := h field (field?_mem hf) n
        cases ht : n.tree? <;> cases hts : ms.trees? <;> by_cases hk : k ∈ seen <;>
          simp_all [Tree.members, readMembers_cons]

theorem readElements_close (shape : Shape Node σ) (i : Nat) (record : σ)
    (fields : List (Field Node σ)) (stop : Nat) :
    (shape.readElements i record fields (.close stop)).toOption =
      (shape.checkLength i).toOption.map fun _ ↦ record := by
  simp only [readElements, toOption_bind, toOption_located, toOption_pure]
  cases (shape.checkLength i).toOption <;> rfl

theorem byTree_elements (shape : Shape Node σ) :
    ∀ (i : Nat) (record : σ) (fields : List (Field Node σ)) (es : Elements),
      (∀ field ∈ fields, Json.ByTree field.read) →
      (shape.readElements i record fields es).toOption =
        es.trees?.bind fun ts ↦ (shape.readElements i record fields (Tree.elements ts)).toOption
  | _, _, _, .close _, _ => by
    simp only [Elements.trees?, Option.bind_some, Tree.elements, readElements_close]
  | _, _, [], .broken _, _ => rfl
  | _, _, _ :: _, .broken _, _ => rfl
  | _, _, [], .cons _ n _ es, _ => by
    cases ht : n.tree? <;> cases hts : es.trees? <;>
      simp [Elements.trees?, Tree.elements, readElements, ht, hts]
  | i, record, field :: fields, .cons _ n _ es, h => by
    have hn := h field List.mem_cons_self n
    have hes := fun record ↦
      byTree_elements shape (i + 1) record fields es fun f hf ↦ h f (.tail _ hf)
    cases ht : n.tree? <;> cases hts : es.trees? <;>
      simp_all [Elements.trees?, Tree.elements, readElements]

theorem byTree_read {shape : Nat → Shape Node σ} (h : ∀ room, (shape room).ByTree) (initial : σ)
    (room : Nat) : Json.ByTree (read shape initial room) := by
  intro n
  cases n with
  | object _ ms =>
    cases room with
    | zero => cases ht : ms.trees? <;> simp [read, Node.tree?, Tree.node, ht]
    | succ room =>
      have hms := byTree_members (h room) [] initial ms
      cases ht : ms.trees? <;> simp_all [read, Node.tree?, Tree.node]
  | list _ es =>
    cases room with
    | zero => cases ht : es.trees? <;> simp [read, Node.tree?, Tree.node, ht]
    | succ room =>
      have hes := byTree_elements (shape room) 0 initial (shape room).fields es (h room)
      cases ht : es.trees? <;> simp_all [read, Node.tree?, Tree.node]
  | null | bool | number | string | broken => rfl

end Shape

end ColumnFunctions.Json
