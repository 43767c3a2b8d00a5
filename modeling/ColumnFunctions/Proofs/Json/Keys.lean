import ColumnFunctions.Proofs.Json.Entries
import Mathlib.Data.List.Forall2

namespace ColumnFunctions.Json

section Settled

variable {α β : Type} {entries result result' : List (String × α)}

theorem lookup_cons (key key' : String) (x : α) (entries : List (String × α)) :
    ((key, x) :: entries).lookup key' = if key' = key then some x else entries.lookup key' := by
  rw [List.lookup_cons]
  by_cases h : key' = key
  · rw [if_pos h, beq_iff_eq.2 h]
  · rw [if_neg h, beq_eq_false_iff_ne.2 h]

theorem lookup_put (key key' : String) (x : α) (entries : List (String × α)) :
    (put key x entries).lookup key' = if key' = key then some x else entries.lookup key' := by
  induction entries with
  | nil => exact lookup_cons key key' x []
  | cons entry entries ih =>
    obtain ⟨k, v⟩ := entry
    rw [put]
    by_cases hk : k = key
    · rw [if_pos hk, lookup_cons, lookup_cons, hk]
      split <;> rfl
    · rw [if_neg hk, lookup_cons, lookup_cons, ih]
      by_cases h : key' = k
      · rw [if_pos h, if_pos h, if_neg (h ▸ hk)]
      · rw [if_neg h, if_neg h]

/-- Each key once, in the order in which the keys came first, with the value that came last. -/
structure Settles (entries result : List (String × α)) : Prop where
  nodup : (result.map Prod.fst).Nodup
  keys : result.map Prod.fst = (entries.map Prod.fst).eraseDups
  values : ∀ key, result.lookup key = entries.reverse.lookup key

theorem settles_nil : Settles ([] : List (String × α)) [] where
  nodup := List.nodup_nil
  keys := rfl
  values _ := rfl

theorem Settles.put (h : Settles entries result) (key : String) (x : α) :
    Settles (entries ++ [(key, x)]) (put key x result) where
  nodup := nodup_put h.nodup key x
  keys := by
    have hmem : key ∈ result.map Prod.fst ↔ key ∈ entries.map Prod.fst := by
      rw [h.keys, List.mem_eraseDups]
    rw [List.map_append, List.map_singleton, List.eraseDups_append, ← h.keys]
    by_cases hk : key ∈ entries.map Prod.fst
    · rw [names_put_of_mem (hmem.2 hk)]
      simp [List.removeAll, hk]
    · rw [put_of_not_mem (hmem.not.2 hk), List.map_append, List.map_singleton]
      simp [List.removeAll, hk, List.eraseDups_cons]
  values key' := by
    rw [lookup_put, List.reverse_append, List.reverse_singleton, List.singleton_append,
      lookup_cons, h.values]

def putAll (result entries : List (String × α)) : List (String × α) :=
  entries.foldl (fun result entry ↦ put entry.1 entry.2 result) result

theorem Settles.putAll (h : Settles entries result) (more : List (String × α)) :
    Settles (entries ++ more) (putAll result more) := by
  induction more generalizing entries result with
  | nil => rwa [List.append_nil]
  | cons entry more ih =>
    have hput := ih (h.put entry.1 entry.2)
    rwa [List.append_assoc] at hput

theorem eq_of_lookup_eq (hn : (result.map Prod.fst).Nodup)
    (hk : result.map Prod.fst = result'.map Prod.fst)
    (hv : ∀ key, result.lookup key = result'.lookup key) : result = result' := by
  induction result generalizing result' with
  | nil => rw [List.map_nil, eq_comm, List.map_eq_nil_iff] at hk; exact hk.symm
  | cons entry result ih =>
    obtain ⟨k, v⟩ := entry
    rw [List.map_cons, eq_comm, List.map_eq_cons_iff] at hk
    obtain ⟨⟨k', v'⟩, result', rfl, rfl, hk⟩ := hk
    rw [List.map_cons, List.nodup_cons] at hn
    have hhead := hv k'
    rw [lookup_cons, lookup_cons, if_pos rfl, if_pos rfl] at hhead
    rw [Option.some.inj hhead, ih hn.2 hk.symm fun key ↦ ?_]
    by_cases h : key = k'
    · have habsent : ∀ {entries : List (String × α)}, k' ∉ entries.map Prod.fst →
          entries.lookup k' = none := by
        intro entries hnot
        rw [List.lookup_eq_none_iff]
        intro p hp
        rw [bne_iff_ne]
        rintro rfl
        exact hnot (List.mem_map_of_mem hp)
      rw [h, habsent hn.1, habsent (hk ▸ hn.1)]
    · have hkey := hv key
      rwa [lookup_cons, lookup_cons, if_neg h, if_neg h] at hkey

theorem settles_iff : Settles entries result ↔ putAll [] entries = result := by
  have hputAll : Settles entries (putAll [] entries) := settles_nil.putAll entries
  constructor
  · intro h
    refine eq_of_lookup_eq hputAll.nodup (hputAll.keys.trans h.keys.symm) fun key ↦ ?_
    rw [hputAll.values, h.values]
  · rintro rfl
    exact hputAll

theorem putAll_map (f : α → β) (result entries : List (String × α)) :
    putAll (result.map fun (key, x) ↦ (key, f x)) (entries.map fun (key, x) ↦ (key, f x)) =
      (putAll result entries).map fun (key, x) ↦ (key, f x) := by
  have hput : ∀ (key : String) (x : α) (entries : List (String × α)),
      put key (f x) (entries.map fun (key, x) ↦ (key, f x)) =
        (put key x entries).map fun (key, x) ↦ (key, f x) := by
    intro key x entries
    induction entries with
    | nil => rfl
    | cons entry entries ih =>
      rw [List.map_cons, Json.put, Json.put, ih]
      split <;> rfl
  induction entries generalizing result with
  | nil => rfl
  | cons entry entries ih =>
    rw [List.map_cons, putAll, List.foldl_cons, hput]
    exact ih _

theorem Settles.map (h : Settles entries result) (f : α → β) :
    Settles (entries.map fun (key, x) ↦ (key, f x)) (result.map fun (key, x) ↦ (key, f x)) := by
  rw [settles_iff] at h ⊢
  rw [← h]
  exact putAll_map f [] entries

end Settled

namespace Tree

inductive Entries {α : Type} (Holds : Tree → α → Prop) :
    List (Option String × Tree) → List (String × α) → Prop
  | nil : Entries Holds [] []
  | cons {key : String} {t : Tree} {x : α} {ms : List (Option String × Tree)}
      {entries : List (String × α)} (h : Holds t x) (hs : Entries Holds ms entries) :
      Entries Holds ((some key, t) :: ms) ((key, x) :: entries)

/-- The value that a tree stands for, if all its strings have a text and all its numbers a value. -/
inductive Means : Tree → Value → Prop
  | null : Means .null .null
  | bool (b : Bool) : Means (.bool b) (.bool b)
  | number (n : Number) : Means (.number (some n)) (.number n)
  | string (s : String) : Means (.string (some s)) (.string s)
  | list {ts : List Tree} {vs : List Value} (h : List.Forall₂ Means ts vs) :
      Means (.list ts) (.list vs)
  | object {ms : List (Option String × Tree)} {entries members : List (String × Value)}
      (h : Entries Means ms entries) (hs : Settles entries members) :
      Means (.object ms) (.object members)

mutual

/-- How deep the brackets of a tree are nested, also those of a value that another one replaces. -/
def depth : Tree → Nat
  | .null | .bool _ | .number _ | .string _ => 0
  | .list ts => depthAll ts + 1
  | .object ms => depthMembers ms + 1

def depthAll : List Tree → Nat
  | [] => 0
  | t :: ts => max t.depth (depthAll ts)

def depthMembers : List (Option String × Tree) → Nat
  | [] => 0
  | (_, t) :: ms => max t.depth (depthMembers ms)

end

section Entries

variable {α β : Type} {Holds Holds' : Tree → α → Prop} {ms : List (Option String × Tree)}
  {entries : List (String × α)}

theorem Entries.imp (h : Entries Holds ms entries) (himp : ∀ t x, Holds t x → Holds' t x) :
    Entries Holds' ms entries := by
  induction h with
  | nil => exact .nil
  | cons h _ ih => exact .cons (himp _ _ h) ih

theorem Entries.map {HoldsMapped : Tree → β → Prop} (h : Entries Holds ms entries) {f : α → β}
    (hmap : ∀ t x, Holds t x → HoldsMapped t (f x)) :
    Entries HoldsMapped ms (entries.map fun (key, x) ↦ (key, f x)) := by
  induction h with
  | nil => exact .nil
  | cons h _ ih => exact .cons (hmap _ _ h) ih

theorem exists_entries (h : ∀ m ∈ ms, ∃ key x, m.1 = some key ∧ Holds m.2 x) :
    ∃ entries, Entries Holds ms entries := by
  induction ms with
  | nil => exact ⟨[], .nil⟩
  | cons m ms ih =>
    rw [List.forall_mem_cons] at h
    obtain ⟨⟨key, x, hkey, hx⟩, h⟩ := h
    obtain ⟨entries, hentries⟩ := ih h
    obtain ⟨k, t⟩ := m
    subst hkey
    exact ⟨(key, x) :: entries, .cons hx hentries⟩

end Entries

/-- An object is read by putting the entries of its members. -/
theorem toOption_readEntries {α : Type} {read : Node → Except Complaint α}
    {ms : List (Option String × Tree)} {entries result : List (String × α)} :
    (readEntries read entries (members ms)).toOption = some result ↔ ∃ more,
      Entries (fun t x ↦ (read t.node).toOption = some x) ms more ∧
        putAll entries more = result := by
  induction ms generalizing entries with
  | nil =>
    constructor
    · intro h
      exact ⟨[], .nil, Option.some.inj h⟩
    · rintro ⟨_, ⟨⟩, rfl⟩
      rfl
  | cons m ms ih =>
    obtain ⟨key, t⟩ := m
    simp only [members, readEntries, toOption_bind, toOption_issue, toOption_orIssue,
      Option.bind_eq_some_iff, toOption_part, ih]
    constructor
    · rintro ⟨key, rfl, x, hx, more, hmore, rfl⟩
      exact ⟨(key, x) :: more, .cons hx hmore, rfl⟩
    · rintro ⟨_, hcons, rfl⟩
      cases hcons with
      | cons hx hmore => exact ⟨_, rfl, _, hx, _, hmore, rfl⟩

mutual

/-- A value is read of a tree just if the tree stands for it and is no deeper than there is room. -/
theorem toOption_ofNode : ∀ (t : Tree) (room : Nat) {v : Value},
    (Value.ofNode room t.node).toOption = some v ↔ t.Means v ∧ t.depth ≤ room
  | .null, room, v | .bool b, room, v => by
    constructor
    · rintro ⟨⟩
      exact ⟨by constructor, Nat.zero_le room⟩
    · rintro ⟨⟨⟩, -⟩
      rfl
  | .number n, room, v => by
    rw [node, Value.ofNode, toOption_map, toOption_issue, toOption_orIssue, Option.map_eq_some_iff]
    constructor
    · rintro ⟨n, rfl, rfl⟩
      exact ⟨.number n, Nat.zero_le room⟩
    · rintro ⟨⟨⟩, -⟩
      exact ⟨_, rfl, rfl⟩
  | .string s, room, v => by
    rw [node, Value.ofNode, toOption_map, toOption_issue, toOption_orIssue, Option.map_eq_some_iff]
    constructor
    · rintro ⟨s, rfl, rfl⟩
      exact ⟨.string s, Nat.zero_le room⟩
    · rintro ⟨⟨⟩, -⟩
      exact ⟨_, rfl, rfl⟩
  | .list ts, 0, v => by
    constructor
    · rintro ⟨⟩
    · rintro ⟨-, hroom⟩
      exact absurd hroom (Nat.not_succ_le_zero _)
  | .list ts, room + 1, v => by
    rw [node, Value.ofNode, toOption_map, Option.map_eq_some_iff, depth, Nat.add_le_add_iff_right]
    constructor
    · rintro ⟨vs, hvs, rfl⟩
      obtain ⟨hvs, hroom⟩ := (toOption_ofElements ts room).1 hvs
      exact ⟨.list hvs, hroom⟩
    · rintro ⟨hmeans, hroom⟩
      cases hmeans with
      | list hvs => exact ⟨_, (toOption_ofElements ts room).2 ⟨hvs, hroom⟩, rfl⟩
  | .object ms, 0, v => by
    constructor
    · rintro ⟨⟩
    · rintro ⟨-, hroom⟩
      exact absurd hroom (Nat.not_succ_le_zero _)
  | .object ms, room + 1, v => by
    rw [node, Value.ofNode, toOption_map, Option.map_eq_some_iff, depth, Nat.add_le_add_iff_right]
    constructor
    · rintro ⟨members, hmembers, rfl⟩
      obtain ⟨entries, hentries, hroom, hputs⟩ := (toOption_ofMembers ms room []).1 hmembers
      exact ⟨.object hentries (settles_iff.2 hputs), hroom⟩
    · rintro ⟨hmeans, hroom⟩
      cases hmeans with
      | object hentries hsettles =>
        exact ⟨_, (toOption_ofMembers ms room []).2
          ⟨_, hentries, hroom, settles_iff.1 hsettles⟩, rfl⟩

theorem toOption_ofElements : ∀ (ts : List Tree) (room : Nat) {vs : List Value},
    (Value.ofElements room (elements ts)).toOption = some vs ↔
      List.Forall₂ Means ts vs ∧ depthAll ts ≤ room
  | [], room, vs => by
    constructor
    · rintro ⟨⟩
      exact ⟨.nil, Nat.zero_le room⟩
    · rintro ⟨⟨⟩, -⟩
      rfl
  | t :: ts, room, vs => by
    simp only [elements, Value.ofElements, toOption_bind, toOption_pure, Option.bind_eq_some_iff,
      toOption_ofNode t room, toOption_ofElements ts room, depthAll, Nat.max_le]
    constructor
    · rintro ⟨v, ⟨hv, hroom⟩, vs, ⟨hvs, hroom'⟩, ⟨⟩⟩
      exact ⟨.cons hv hvs, hroom, hroom'⟩
    · rintro ⟨hcons, hroom, hroom'⟩
      cases hcons with
      | cons hv hvs => exact ⟨_, ⟨hv, hroom⟩, _, ⟨hvs, hroom'⟩, rfl⟩

theorem toOption_ofMembers : ∀ (ms : List (Option String × Tree)) (room : Nat)
    (entries : List (String × Value)) {result : List (String × Value)},
    (Value.ofMembers room entries (members ms)).toOption = some result ↔ ∃ more,
      Entries Means ms more ∧ depthMembers ms ≤ room ∧ putAll entries more = result
  | [], room, entries, result => by
    constructor
    · rintro ⟨⟩
      exact ⟨[], .nil, Nat.zero_le room, rfl⟩
    · rintro ⟨_, ⟨⟩, -, rfl⟩
      rfl
  | (key, t) :: ms, room, entries, result => by
    simp only [members, Value.ofMembers, toOption_bind, toOption_issue, toOption_orIssue,
      Option.bind_eq_some_iff, toOption_ofNode t room, toOption_ofMembers ms room, depthMembers,
      Nat.max_le]
    constructor
    · rintro ⟨key, rfl, v, ⟨hv, hroom⟩, more, hmore, hroom', rfl⟩
      exact ⟨(key, v) :: more, .cons hv hmore, ⟨hroom, hroom'⟩, rfl⟩
    · rintro ⟨_, hcons, ⟨hroom, hroom'⟩, rfl⟩
      cases hcons with
      | cons hv hmore => exact ⟨_, rfl, _, ⟨hv, hroom⟩, _, hmore, hroom', rfl⟩

end

end Tree

end ColumnFunctions.Json
