import ColumnFunctions.Proofs.Secret.Cache

namespace ColumnFunctions.Secret.Cache

def missing? (c : Cache) (name : String) : Option String :=
  if (c.key? name).isNone then some name else none

theorem requests_get (store : Store) (name : String) (c : Cache) :
    (c.get store name).2.requests = c.requests ++ (c.missing? name).toList := by
  rw [missing?]
  cases hkey : c.key? name with
  | some key =>
    rw [get_of_key? hkey]
    exact (List.append_nil _).symm
  | none =>
    cases hr : keyOfReply name (store name (c.asked name)) with
    | ok key => rw [get_of_ok hkey hr]; rfl
    | error e => rw [get_of_error hkey hr]; rfl

def Reached (store : Store) (c : Cache) : Prop := ∃ calls, (getEach store calls {}).2 = c

theorem reached_empty (store : Store) : Reached store {} := ⟨[], rfl⟩

namespace Reached

variable {store : Store} {name : String} {c : Cache}

theorem getEach (h : Reached store c) (calls : List String) :
    Reached store (Cache.getEach store calls c).2 := by
  obtain ⟨before, rfl⟩ := h
  refine ⟨before ++ calls, ?_⟩
  rw [getEach_append]

theorem has (h : Reached store c) (name : String) : ∃ m, Has store name m c := by
  obtain ⟨calls, rfl⟩ := h
  exact ⟨_, (has_empty store name).getEach calls⟩

theorem nodup_names (h : Reached store c) : (c.keys.map Prod.fst).Nodup := by
  obtain ⟨calls, rfl⟩ := h
  exact nodup_getEach calls List.nodup_nil

/-- A key in the first reply for a name is not asked for again. -/
theorem asked_le_one (h : Reached store c) {key : Key}
    (hk : store name 0 = .ok (Base64.encode key.val)) : c.asked name ≤ 1 := by
  have hzero : ∀ k, (∀ i < k, ∃ e, keyOfReply name (store name i) = .error e) → k = 0 := by
    intro k hbefore
    refine Nat.eq_zero_of_not_pos fun hpos ↦ ?_
    obtain ⟨e, he⟩ := hbefore 0 hpos
    cases (keyOfReply_eq_ok.2 hk).symm.trans he
  obtain ⟨m, ⟨hlt, -, hasked⟩ | ⟨k, _, hfirst, -, -, -, hasked⟩⟩ := h.has name
  · rw [hasked, hzero m (Store.lt_firstKey.1 hlt)]
    exact Nat.zero_le 1
  · rw [hasked, hzero k (Store.firstKey_eq_succ.1 hfirst).2]

theorem key?_eq_none (h : Reached store c)
    (he : ∀ i, ∃ e, keyOfReply name (store name i) = .error e) : c.key? name = none := by
  obtain ⟨m, ⟨-, hkey, -⟩ | ⟨k, key, -, -, -, hr, -⟩⟩ := h.has name
  · exact hkey
  · obtain ⟨e, he⟩ := he k
    cases hr.symm.trans he

/-- The names with a key are those that were asked for and have one. -/
theorem exists_key?_iff (h : Reached store c) (hsame : ∀ i, store name i = store name 0) :
    (∃ key, c.key? name = some key) ↔
      name ∈ c.requests ∧ ∃ key : Key, store name 0 = .ok (Base64.encode key.val) := by
  obtain ⟨m, ⟨hlt, hkey, hasked⟩ | ⟨k, key, -, -, hkey, hr, hasked⟩⟩ := h.has name
  · rw [hkey]
    refine ⟨fun ⟨_, hsome⟩ ↦ (nomatch hsome), ?_⟩
    rintro ⟨hmem, key, hr⟩
    have hpos : 0 < m := hasked ▸ List.count_pos_iff.2 hmem
    obtain ⟨e, he⟩ := Store.lt_firstKey.1 hlt 0 hpos
    cases (keyOfReply_eq_ok.2 hr).symm.trans he
  · rw [hsame k, keyOfReply_eq_ok] at hr
    refine ⟨fun _ ↦ ⟨?_, key, hr⟩, fun _ ↦ ⟨key, hkey⟩⟩
    have hpos : 0 < c.asked name := hasked ▸ Nat.succ_pos k
    exact List.count_pos_iff.1 hpos

open Classical in
theorem size_eq (h : Reached store c) (hsame : ∀ name i, store name i = store name 0) :
    c.size = (c.requests.toFinset.filter fun name ↦
      ∃ key : Key, store name 0 = .ok (Base64.encode key.val)).card := by
  rw [size, ← List.length_map Prod.fst, ← List.toFinset_card_of_nodup h.nodup_names]
  congr 1
  ext name
  rw [List.mem_toFinset, mem_names_iff, h.exists_key?_iff (hsame name), Finset.mem_filter,
    List.mem_toFinset]

end Reached

end ColumnFunctions.Secret.Cache
