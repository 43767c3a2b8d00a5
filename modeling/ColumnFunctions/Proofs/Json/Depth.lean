import ColumnFunctions.Proofs.Json.Entries

namespace ColumnFunctions.Json.Value

mutual

def depth : Value → Nat
  | .null | .bool _ | .number _ | .string _ => 0
  | .list vs => depthAll vs + 1
  | .object ms => depthMembers ms + 1

def depthAll : List Value → Nat
  | [] => 0
  | v :: vs => max v.depth (depthAll vs)

def depthMembers : List (String × Value) → Nat
  | [] => 0
  | (_, v) :: ms => max v.depth (depthMembers ms)

/-- No object in the value has a key twice. -/
def Distinct : Value → Prop
  | .null | .bool _ | .number _ | .string _ => True
  | .list vs => DistinctAll vs
  | .object ms => (ms.map Prod.fst).Nodup ∧ DistinctMembers ms

def DistinctAll : List Value → Prop
  | [] => True
  | v :: vs => v.Distinct ∧ DistinctAll vs

def DistinctMembers : List (String × Value) → Prop
  | [] => True
  | (_, v) :: ms => v.Distinct ∧ DistinctMembers ms

end

mutual

theorem toOption_ofNode_tree : ∀ (v : Value) (room : Nat), v.Distinct →
    (ofNode room v.tree.node).toOption = if v.depth ≤ room then some v else none
  | .null, _, _ | .bool _, _, _ | .number _, _, _ | .string _, _, _ => rfl
  | .list vs, 0, _ => rfl
  | .list vs, room + 1, h => by
    rw [tree, Tree.node, ofNode, toOption_map, toOption_ofElements_trees vs room h, depth]
    simp only [Nat.add_le_add_iff_right]
    split <;> rfl
  | .object ms, 0, _ => rfl
  | .object ms, room + 1, h => by
    rw [tree, Tree.node, ofNode, toOption_map,
      toOption_ofMembers_trees ms room [] h.2 (by rw [List.nil_append]; exact h.1), depth]
    simp only [Nat.add_le_add_iff_right]
    split <;> rfl

theorem toOption_ofElements_trees : ∀ (vs : List Value) (room : Nat), DistinctAll vs →
    (ofElements room (Tree.elements (trees vs))).toOption =
      if depthAll vs ≤ room then some vs else none
  | [], _, _ => by simp [trees, Tree.elements, ofElements, depthAll]
  | v :: vs, room, h => by
    have hv := toOption_ofNode_tree v room h.1
    have hvs := toOption_ofElements_trees vs room h.2
    simp only [trees, Tree.elements, ofElements, toOption_bind, toOption_pure, hv, hvs, depthAll,
      Nat.max_le]
    by_cases hle : v.depth ≤ room
    · by_cases hle' : depthAll vs ≤ room <;> simp [hle, hle']
    · simp [hle]

theorem toOption_ofMembers_trees : ∀ (ms : List (String × Value)) (room : Nat)
    (entries : List (String × Value)), DistinctMembers ms →
    ((entries ++ ms).map Prod.fst).Nodup →
    (ofMembers room entries (Tree.members (memberTrees ms))).toOption =
      if depthMembers ms ≤ room then some (entries ++ ms) else none
  | [], _, entries, _, _ => by simp [memberTrees, Tree.members, ofMembers, depthMembers]
  | (key, v) :: ms, room, entries, h, hn => by
    have hv := toOption_ofNode_tree v room h.1
    have hms := toOption_ofMembers_trees ms room (entries ++ [(key, v)]) h.2 (by
      rwa [List.append_assoc])
    rw [List.append_assoc, List.singleton_append, ← put_of_not_mem (not_mem_of_nodup hn)] at hms
    simp only [memberTrees, Tree.members, ofMembers, toOption_bind, toOption_issue,
      Tree.toOption_orIssue, Option.bind_some, hv, depthMembers, Nat.max_le]
    by_cases hle : v.depth ≤ room
    · simp only [hle, if_true, Option.bind_some, hms, true_and]
    · simp only [hle, if_false, Option.bind_none, false_and]

end

end ColumnFunctions.Json.Value
