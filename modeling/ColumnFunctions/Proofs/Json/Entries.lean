import ColumnFunctions.Proofs.Json.Written

namespace ColumnFunctions.Json

theorem lookup_eq_some_iff {κ α : Type} [BEq κ] [LawfulBEq κ] {entries : List (κ × α)} {key : κ}
    {x : α} (h : (entries.map Prod.fst).count key ≤ 1) :
    entries.lookup key = some x ↔ (key, x) ∈ entries := by
  induction entries with
  | nil => exact iff_of_false (nomatch ·) (nomatch ·)
  | cons entry entries ih =>
    obtain ⟨k, y⟩ := entry
    rw [List.map_cons] at h
    by_cases hk : key = k
    · subst hk
      rw [List.count_cons_self] at h
      have hmem : (key, x) ∉ entries := by
        intro hx
        have hkey : key ∈ entries.map Prod.fst := List.mem_map.2 ⟨_, hx, rfl⟩
        have hpos := List.count_pos_iff.2 hkey
        omega
      simp [List.lookup_cons_self, hmem, eq_comm]
    · have hne : (key == k) = false := beq_eq_false_iff_ne.2 hk
      rw [List.count_cons_of_ne (Ne.symm hk)] at h
      rw [List.lookup_cons, hne, List.mem_cons, ih h]
      simp [hk]

section Put

variable {α : Type} {key : String} {entries : List (String × α)}

theorem names_put_of_mem (h : key ∈ entries.map Prod.fst) (x : α) :
    (put key x entries).map Prod.fst = entries.map Prod.fst := by
  induction entries with
  | nil => cases h
  | cons entry entries ih =>
    obtain ⟨k, v⟩ := entry
    rw [put]
    by_cases hk : k = key
    · rw [if_pos hk]
      rfl
    · rw [List.map_cons, List.mem_cons] at h
      rw [if_neg hk, List.map_cons, List.map_cons, ih (h.resolve_left (Ne.symm hk))]

theorem put_of_not_mem (h : key ∉ entries.map Prod.fst) (x : α) :
    put key x entries = entries ++ [(key, x)] := by
  induction entries with
  | nil => rfl
  | cons entry entries ih =>
    obtain ⟨k, v⟩ := entry
    rw [List.map_cons, List.mem_cons, not_or] at h
    rw [put, if_neg (Ne.symm h.1), ih h.2, List.cons_append]

theorem nodup_put (h : (entries.map Prod.fst).Nodup) (key : String) (x : α) :
    ((put key x entries).map Prod.fst).Nodup := by
  by_cases hk : key ∈ entries.map Prod.fst
  · rwa [names_put_of_mem hk]
  · rw [put_of_not_mem hk, List.map_append, List.nodup_append]
    refine ⟨h, by simp, ?_⟩
    intro a ha b hb hab
    rw [List.map_singleton, List.mem_singleton] at hb
    rw [hab, hb] at ha
    exact hk ha

theorem not_mem_of_nodup {more : List (String × α)} {x : α}
    (h : ((entries ++ (key, x) :: more).map Prod.fst).Nodup) : key ∉ entries.map Prod.fst := by
  intro hmem
  rw [List.map_append, List.nodup_append] at h
  exact h.2.2 key hmem key List.mem_cons_self rfl

theorem mem_put (key : String) (x : α) (entries : List (String × α)) :
    (key, x) ∈ put key x entries := by
  induction entries with
  | nil => exact List.mem_cons_self
  | cons entry entries ih =>
    obtain ⟨k, v⟩ := entry
    rw [put]
    split
    · next hk => exact hk ▸ List.mem_cons_self
    · exact List.mem_cons_of_mem _ ih

theorem put_injective (key : String) (entries : List (String × α)) :
    Function.Injective fun x ↦ put key x entries := by
  intro x y h
  induction entries with
  | nil => simpa [put] using h
  | cons entry entries ih =>
    simp only [put] at h
    split at h
    · simpa using h
    · exact ih (List.cons.inj h).2

/-- The value of a key that has the same place among the keys. -/
theorem put_zip {keys : List String} {values : List α} {j : ℕ} (hn : keys.Nodup)
    (hl : keys.length ≤ values.length) (hj : keys[j]? = some key) (x : α) :
    put key x (keys.zip values) = keys.zip (values.set j x) := by
  induction keys generalizing values j with
  | nil => cases hj
  | cons k keys ih =>
    obtain ⟨v, values, rfl⟩ := List.exists_cons_of_length_pos (Nat.lt_of_lt_of_le (by simp) hl)
    rw [List.nodup_cons] at hn
    rw [List.zip_cons_cons, put]
    cases j with
    | zero =>
      rw [if_pos (Option.some.inj hj)]
      rfl
    | succ j =>
      have hne : k ≠ key := by
        rintro rfl
        exact hn.1 (List.mem_of_getElem? hj)
      rw [if_neg hne, ih hn.2 (Nat.le_of_succ_le_succ hl) hj]
      rfl

end Put

variable {α : Type} {read : Node → Except Complaint α}

theorem nodup_readEntries : ∀ {entries : List (String × α)} {ms : Members}
    {result : List (String × α)}, readEntries read entries ms = .ok result →
      (entries.map Prod.fst).Nodup → (result.map Prod.fst).Nodup
  | _, .close _, _, h, hn => by
    cases h
    exact hn
  | _, .broken _, _, h, _ => nomatch h
  | _, .bare _ _ _, _, h, _ => by
    obtain ⟨_, -, h⟩ := bind_eq_ok.1 h
    cases h
  | entries, .cons key _ _ _ ms, _, h, hn => by
    obtain ⟨k, -, h⟩ := bind_eq_ok.1 h
    obtain ⟨x, -, h⟩ := bind_eq_ok.1 h
    exact nodup_readEntries h (nodup_put hn k x)

/-- Entries with different keys are read again as they were written. -/
theorem readEntries_append {toValue : α → Value} (h : ∀ x, read (toValue x).tree.node = .ok x)
    (entries more : List (String × α)) (hn : ((entries ++ more).map Prod.fst).Nodup) :
    readEntries read entries
      (Tree.members (Value.memberTrees (more.map fun (key, x) ↦ (key, toValue x)))) =
        .ok (entries ++ more) := by
  induction more generalizing entries with
  | nil =>
    rw [List.append_nil]
    rfl
  | cons entry more ih =>
    obtain ⟨key, x⟩ := entry
    have hkey := not_mem_of_nodup hn
    have hrest := ih (entries ++ [(key, x)]) (by rwa [List.append_assoc])
    rw [List.append_assoc] at hrest
    rw [← put_of_not_mem hkey] at hrest
    rw [List.map_cons, Value.memberTrees, Tree.members, readEntries, h]
    exact hrest

theorem readEntries_written {toValue : α → Value} (h : ∀ x, read (toValue x).tree.node = .ok x)
    {entries : List (String × α)} (hn : (entries.map Prod.fst).Nodup) :
    readEntries read []
      (Tree.members (Value.memberTrees (entries.map fun (key, x) ↦ (key, toValue x)))) =
        .ok entries :=
  readEntries_append h [] entries hn

end ColumnFunctions.Json
