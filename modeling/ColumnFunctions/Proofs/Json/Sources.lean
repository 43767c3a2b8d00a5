import ColumnFunctions.Proofs.Json.Keys
import Mathlib.Data.List.Nodup

namespace ColumnFunctions.Json

theorem putAll_of_nodup {α : Type} {result entries : List (String × α)}
    (hn : ((result ++ entries).map Prod.fst).Nodup) :
    putAll result entries = result ++ entries := by
  induction entries generalizing result with
  | nil => exact (List.append_nil result).symm
  | cons entry entries ih =>
    have hput : put entry.1 entry.2 result = result ++ [entry] :=
      put_of_not_mem (not_mem_of_nodup hn) entry.2
    have hrest := @ih (result ++ [entry])
    rw [List.append_assoc] at hrest
    rw [putAll, List.foldl_cons, hput]
    exact hrest hn

namespace Tree

mutual

def Distinct : Tree → Prop
  | .null | .bool _ | .number _ | .string _ => True
  | .list ts => DistinctAll ts
  | .object ms => (ms.map Prod.fst).Nodup ∧ DistinctMembers ms

def DistinctAll : List Tree → Prop
  | [] => True
  | t :: ts => t.Distinct ∧ DistinctAll ts

def DistinctMembers : List (Option String × Tree) → Prop
  | [] => True
  | (_, t) :: ms => t.Distinct ∧ DistinctMembers ms

end

theorem Entries.keys_eq {α : Type} {Holds : Tree → α → Prop} {ms : List (Option String × Tree)}
    {entries : List (String × α)} (h : Entries Holds ms entries) :
    ms.map Prod.fst = (entries.map Prod.fst).map some := by
  induction h with
  | nil => rfl
  | cons _ _ ih => rw [List.map_cons, List.map_cons, List.map_cons, ih]

/-- An object without repeated keys stands for its members one by one. -/
theorem Means.exists_members {ms : List (Option String × Tree)} {v : Value}
    (h : (Tree.object ms).Means v) (hn : (ms.map Prod.fst).Nodup) :
    ∃ members, v = .object members ∧ Entries Means ms members ∧ (members.map Prod.fst).Nodup := by
  cases h with
  | @object _ entries members hentries hsettles =>
    have hkeys : (entries.map Prod.fst).Nodup := by
      rw [hentries.keys_eq] at hn
      exact List.Nodup.of_map some hn
    have hself : putAll [] entries = entries := putAll_of_nodup hkeys
    obtain rfl : entries = members := hself.symm.trans (settles_iff.1 hsettles)
    exact ⟨entries, rfl, hentries, hkeys⟩

end Tree

/-- A reader makes of a tree without repeated keys what another one makes of the value that the tree
stands for. -/
def Alike {α : Type} (read : (room : ℕ) → Node → Except Complaint α)
    (ofValue : Value → Except Complaint α) : Prop :=
  ∀ ⦃t : Tree⦄ ⦃v : Value⦄ ⦃room : ℕ⦄, t.Means v → t.Distinct → t.depth ≤ room →
    (read room t.node).toOption = (ofValue v).toOption

section Alike

variable {α β : Type} {read : (room : ℕ) → Node → Except Complaint α}
  {ofValue : Value → Except Complaint α}

theorem Alike.bind (h : Alike read ofValue) (f : α → Except Complaint β) :
    Alike (fun room n ↦ read room n >>= f) fun v ↦ ofValue v >>= f := by
  intro t v room hm hd hroom
  rw [toOption_bind, toOption_bind, h hm hd hroom]

/-- A text is read as the value that has been read of it. -/
theorem Alike.readDocument (h : Alike read ofValue) (hread : ByTree (read maxDepth)) {text : String}
    {t : Tree} {v : Value} (ht : SpellsText t text.toList) (hd : t.Distinct)
    (hv : readDocument Value.ofNode text = .ok v) (x : α) :
    Json.readDocument read text = .ok x ↔ ofValue v = .ok x := by
  rw [readDocument_eq_ok_of_spells (byTree_value maxDepth) ht, Tree.toOption_ofNode] at hv
  rw [readDocument_eq_ok_of_spells hread ht, h hv.1 hd hv.2, toOption_eq_some]

end Alike

structure Field.Alike {σ : Type} (field : Field Node σ) (field' : Field Value σ) : Prop where
  name_eq : field.name = field'.name
  read_eq : ∀ ⦃t : Tree⦄ ⦃v : Value⦄, t.Means v →
    (field.read t.node).toOption = (field'.read v).toOption

namespace Shape

variable {σ : Type}

structure Alike (shape : Shape Node σ) (shape' : Shape Value σ) : Prop where
  fields : List.Forall₂ Field.Alike shape.fields shape'.fields
  optional : shape.required = false
  optional' : shape'.required = false

namespace Alike

variable {shape : Shape Node σ} {shape' : Shape Value σ}

theorem field? (h : shape.Alike shape') (key : String) :
    Option.Rel Field.Alike (shape.field? key) (shape'.field? key) := by
  rw [Shape.field?, Shape.field?]
  obtain ⟨hfields, -, -⟩ := h
  generalize shape.fields = fields at hfields
  generalize shape'.fields = fields' at hfields
  induction hfields with
  | nil => exact .none
  | @cons field field' fields fields' hfield _ ih =>
    by_cases hkey : field.name = key
    · have hkey' : field'.name = key := hfield.name_eq.symm.trans hkey
      rw [List.find?_cons_of_pos (by simpa using hkey),
        List.find?_cons_of_pos (by simpa using hkey')]
      exact .some hfield
    · have hkey' : field'.name ≠ key := fun heq ↦ hkey (hfield.name_eq.trans heq)
      rw [List.find?_cons_of_neg (by simpa using hkey),
        List.find?_cons_of_neg (by simpa using hkey')]
      exact ih

/-- The members that are left, once those with a name in `seen` have been read. -/
theorem readMembers_eq (h : shape.Alike shape') {ms : List (Option String × Tree)}
    {members : List (String × Value)} (hms : Tree.Entries Tree.Means ms members)
    {seen : List String} (hn : (members.map Prod.fst ++ seen).Nodup) (record : σ) :
    (shape.readMembers seen record (Tree.members ms)).toOption =
      (shape'.ofMembers seen record members).toOption := by
  induction hms generalizing seen record with
  | nil =>
    have hnames : shape.checkNames seen = .ok () := by
      rw [checkNames, h.optional]
      rfl
    have hnames' : shape'.checkNames seen = .ok () := by
      rw [checkNames, h.optional']
      rfl
    rw [Tree.members, readMembers_close, hnames, ofMembers, hnames']
    rfl
  | @cons key t v ms members hv _ ih =>
    rw [List.map_cons, List.cons_append, List.nodup_cons, List.mem_append, not_or] at hn
    obtain ⟨⟨hkey, hseen⟩, hrest⟩ := hn
    rw [Tree.members, readMembers_cons, Tree.toOption_orIssue, Option.bind_some, ofMembers]
    have hfield := h.field? key
    generalize shape.field? key = field at hfield
    generalize shape'.field? key = field' at hfield
    cases hfield with
    | none =>
      dsimp only
      rw [Tree.tree?_node, Option.bind_some, ih hrest]
    | @some field field' hfield =>
      have hseen' : (members.map Prod.fst ++ key :: seen).Nodup := by
        rw [List.perm_middle.nodup_iff, List.nodup_cons, List.mem_append, not_or]
        exact ⟨⟨hkey, hseen⟩, hrest⟩
      simp only [if_neg hseen, toOption_bind, hfield.read_eq hv, ih hseen']

/-- The elements from the one with number `i` on, which belong to the given fields. -/
theorem readElements_eq (h : shape.Alike shape') {ts : List Tree} {vs : List Value}
    (hts : List.Forall₂ Tree.Means ts vs) {fields : List (Field Node σ)}
    {fields' : List (Field Value σ)} (hfields : List.Forall₂ Field.Alike fields fields') (i : ℕ)
    (record : σ) :
    (shape.readElements i record fields (Tree.elements ts)).toOption =
      (shape'.ofElements i record fields' vs).toOption := by
  induction hts generalizing fields fields' i record with
  | nil =>
    have hlength : shape.checkLength i = .ok () := by
      rw [checkLength, h.optional]
      rfl
    have hlength' : shape'.checkLength i = .ok () := by
      rw [checkLength, h.optional']
      rfl
    rw [Tree.elements, readElements_close, hlength, ofElements, hlength']
    rfl
  | @cons t v ts vs hv _ ih =>
    cases hfields with
    | nil => rfl
    | @cons field field' fields fields' hfield hfields =>
      simp only [Tree.elements, readElements, ofElements, toOption_bind, toOption_part,
        hfield.read_eq hv, ih hfields]

end Alike

theorem alike_read {shape : ℕ → Shape Node σ} {shape' : Shape Value σ}
    (h : ∀ room, (shape room).Alike shape') (initial : σ) :
    Json.Alike (Shape.read shape initial) (shape'.ofValue initial) := by
  intro t v room hm hd hroom
  cases hm with
  | null | bool | number | string => rfl
  | @list ts vs hts =>
    cases room with
    | zero => exact absurd hroom (Nat.not_succ_le_zero _)
    | succ room => exact (h room).readElements_eq hts (h room).fields 0 initial
  | @object ms entries members hms hs =>
    cases room with
    | zero => exact absurd hroom (Nat.not_succ_le_zero _)
    | succ room =>
      obtain ⟨_, ⟨⟩, hentries, hn⟩ := (Tree.Means.object hms hs).exists_members hd.1
      exact (h room).readMembers_eq hentries (by rwa [List.append_nil]) initial

end Shape

end ColumnFunctions.Json
