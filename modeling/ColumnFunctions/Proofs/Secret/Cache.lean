import ColumnFunctions.Proofs.Secret.FirstKey
import Mathlib.Data.Finset.Card

namespace ColumnFunctions.Secret

namespace Cache

@[simp] theorem asked_mk_append (keys : List (String × Key)) (requests : List String)
    (name other : String) :
    (⟨keys, requests ++ [name]⟩ : Cache).asked other =
      requests.count other + if name = other then 1 else 0 := by
  simp [asked, List.count_singleton]

theorem get_of_key? {store : Store} {name : String} {c : Cache} {key : Key}
    (h : c.key? name = some key) : c.get store name = (.ok key, c) := by
  rw [get, h]

theorem get_of_ok {store : Store} {name : String} {c : Cache} {key : Key}
    (h : c.key? name = none) (hr : keyOfReply name (store name (c.asked name)) = .ok key) :
    c.get store name = (.ok key, ⟨c.keys ++ [(name, key)], c.requests ++ [name]⟩) := by
  simp only [get, h, hr]

theorem get_of_error {store : Store} {name : String} {c : Cache} {e : Failure}
    (h : c.key? name = none) (hr : keyOfReply name (store name (c.asked name)) = .error e) :
    c.get store name = (.error e, ⟨c.keys, c.requests ++ [name]⟩) := by
  simp only [get, h, hr]

theorem size_le_size_get (store : Store) (name : String) (c : Cache) :
    c.size ≤ (c.get store name).2.size := by
  cases h : c.key? name with
  | some key => rw [get_of_key? h]
  | none =>
    cases hr : keyOfReply name (store name (c.asked name)) with
    | ok key =>
      rw [get_of_ok h hr, size, size, List.length_append]
      exact Nat.le_add_right _ _
    | error e => rw [get_of_error h hr]; rfl

def getEach (store : Store) : List String → Cache → List (Except Failure Key) × Cache
  | [], c => ([], c)
  | name :: calls, c =>
    let (result, c) := c.get store name
    let (results, c) := getEach store calls c
    (result :: results, c)

variable (store : Store)

theorem getEach_append (calls more : List String) (c : Cache) :
    getEach store (calls ++ more) c =
      ((getEach store calls c).1 ++ (getEach store more (getEach store calls c).2).1,
        (getEach store more (getEach store calls c).2).2) := by
  induction calls generalizing c with
  | nil => rfl
  | cons name calls ih => simp only [List.cons_append, getEach, ih]

@[simp] theorem length_getEach (calls : List String) (c : Cache) :
    (getEach store calls c).1.length = calls.length := by
  induction calls generalizing c with
  | nil => rfl
  | cons name calls ih => simp only [getEach, List.length_cons, ih]

theorem size_le_size_getEach (calls : List String) (c : Cache) :
    c.size ≤ (getEach store calls c).2.size := by
  induction calls generalizing c with
  | nil => exact Nat.le_refl _
  | cons name calls ih => exact (size_le_size_get store name c).trans (ih _)

theorem key?_mk_append (keys : List (String × Key)) (requests : List String) (name : String)
    (key : Key) (other : String) :
    (⟨keys ++ [(name, key)], requests⟩ : Cache).key? other =
      (keys.lookup other).or (if other = name then some key else none) := by
  rw [key?, List.lookup_append]
  congr 1
  by_cases h : other = name
  · rw [h, List.lookup_cons_self, if_pos rfl]
  · rw [List.lookup_cons, beq_false_of_ne h, if_neg h]
    rfl

theorem mem_names_iff {c : Cache} {name : String} :
    name ∈ c.keys.map Prod.fst ↔ ∃ key, c.key? name = some key := by
  rw [← Option.isSome_iff_exists, key?]
  simp [List.lookup_isSome_iff]

theorem get_of_ne {name other : String} (h : other ≠ name) (c : Cache) :
    (c.get store name).2.key? other = c.key? other ∧
      (c.get store name).2.asked other = c.asked other := by
  cases hkey : c.key? name with
  | some key => rw [get_of_key? hkey]; exact ⟨rfl, rfl⟩
  | none =>
    cases hr : keyOfReply name (store name (c.asked name)) with
    | ok key =>
      rw [get_of_ok hkey hr, asked_mk_append, key?_mk_append, if_neg h, if_neg h.symm]
      exact ⟨Option.or_none, rfl⟩
    | error e =>
      rw [get_of_error hkey hr, asked_mk_append, if_neg h.symm]
      exact ⟨rfl, rfl⟩

def Has (name : String) (m : ℕ) (c : Cache) : Prop :=
  (m : ℕ∞) < store.firstKey name ∧ c.key? name = none ∧ c.asked name = m ∨
    ∃ k key, store.firstKey name = (k + 1 : ℕ) ∧ k < m ∧ c.key? name = some key ∧
      keyOfReply name (store name k) = .ok key ∧ c.asked name = k + 1

theorem has_empty (name : String) : Has store name 0 {} :=
  .inl ⟨Store.lt_firstKey.2 fun i hi ↦ absurd hi (Nat.not_lt_zero i), rfl, rfl⟩

variable {store}

theorem Has.of_get_ne {name other : String} {m : ℕ} {c : Cache} (h : Has store other m c)
    (hne : other ≠ name) : Has store other m (c.get store name).2 := by
  obtain ⟨hkey, hasked⟩ := get_of_ne store hne c
  simpa only [Has, hkey, hasked] using h

/-- One more look-up of a name, and what it gets. -/
theorem Has.get {name : String} {m : ℕ} {c : Cache} (h : Has store name m c) :
    (c.get store name).1 = store.answer name m ∧ Has store name (m + 1) (c.get store name).2 := by
  rcases h with ⟨hlt, hkey, rfl⟩ | ⟨k, key, hk, hlt, hkey, hr, hasked⟩
  · have hbefore := Store.lt_firstKey.1 hlt
    rw [Store.answer_of_le hlt]
    cases hr : keyOfReply name (store name (c.asked name)) with
    | error e =>
      rw [get_of_error hkey hr]
      refine ⟨rfl, .inl ⟨Store.lt_firstKey.2 fun i hi ↦ ?_, hkey, ?_⟩⟩
      · rcases Nat.lt_succ_iff_lt_or_eq.1 hi with hi | rfl
        · exact hbefore i hi
        · exact ⟨e, hr⟩
      · rw [asked_mk_append, if_pos rfl, asked]
    | ok key =>
      rw [get_of_ok hkey hr]
      refine ⟨rfl, .inr ⟨c.asked name, key, Store.firstKey_eq_succ.2 ⟨⟨key, hr⟩, hbefore⟩,
        Nat.lt_succ_self _, ?_, hr, ?_⟩⟩
      · rw [key?_mk_append, if_pos rfl, ← key?, hkey, Option.none_or]
      · rw [asked_mk_append, if_pos rfl, asked]
  · rw [get_of_key? hkey, Store.answer_of_firstKey hk (Nat.le_of_lt hlt), hr]
    exact ⟨rfl, .inr ⟨k, key, hk, Nat.lt_succ_of_lt hlt, hkey, hr, hasked⟩⟩

theorem Has.getEach {name : String} {m : ℕ} {c : Cache} (h : Has store name m c)
    (calls : List String) : Has store name (m + calls.count name) (getEach store calls c).2 := by
  induction calls generalizing m c with
  | nil => exact h
  | cons call calls ih =>
    by_cases hne : name = call
    · subst hne
      rw [List.count_cons_self, Nat.add_comm _ 1, ← Nat.add_assoc]
      exact ih h.get.2
    · rw [List.count_cons_of_ne (Ne.symm hne)]
      exact ih (h.of_get_ne hne)

/-- A look-up gets what its name has at that number, whatever was asked of other names. -/
theorem getElem?_getEach (calls : List String) {p : ℕ} {name : String} {m : ℕ} {c : Cache}
    (h : Has store name m c) (hp : calls[p]? = some name) :
    (Cache.getEach store calls c).1[p]? =
      some (store.answer name (m + (calls.take p).count name)) := by
  have hlt := (List.getElem?_eq_some_iff.1 hp).1
  have hdrop : calls = calls.take p ++ name :: calls.drop (p + 1) := by
    rw [← (List.getElem?_eq_some_iff.1 hp).2, List.getElem_cons_drop, List.take_append_drop]
  have hlen : (Cache.getEach store (calls.take p) c).1.length = p := by
    rw [length_getEach, List.length_take, Nat.min_eq_left (Nat.le_of_lt hlt)]
  -- The look-up comes after the first `p`, which leave what they found of the name.
  conv => lhs; rw [hdrop]
  rw [getEach_append, List.getElem?_append_right (Nat.le_of_eq hlen), hlen, Nat.sub_self,
    Cache.getEach, List.getElem?_cons_zero, (h.getEach _).get.1]

def resultsFor (name : String) (calls : List String) (results : List (Except Failure Key)) :
    List (Except Failure Key) :=
  ((calls.zip results).filter (·.1 = name)).map Prod.snd

theorem resultsFor_getEach (calls : List String) {name : String} {m : ℕ} {c : Cache}
    (h : Has store name m c) :
    resultsFor name calls (Cache.getEach store calls c).1 =
      (List.range' m (calls.count name)).map (store.answer name) := by
  induction calls generalizing m c with
  | nil => rfl
  | cons call calls ih =>
    by_cases hne : name = call
    · subst hne
      have := ih h.get.2
      simp only [resultsFor] at this
      simp [resultsFor, Cache.getEach, this, h.get.1, List.range'_succ]
    · have := ih (h.of_get_ne hne)
      simp only [resultsFor] at this
      simp [resultsFor, Cache.getEach, this, Ne.symm hne]

theorem nodup_get {c : Cache} (h : (c.keys.map Prod.fst).Nodup) (name : String) :
    ((c.get store name).2.keys.map Prod.fst).Nodup := by
  cases hkey : c.key? name with
  | some key => rwa [get_of_key? hkey]
  | none =>
    cases hr : keyOfReply name (store name (c.asked name)) with
    | error e => rwa [get_of_error hkey hr]
    | ok key =>
      have hmem : name ∉ c.keys.map Prod.fst := by
        rw [mem_names_iff, hkey]
        simp
      rw [get_of_ok hkey hr, List.map_append, List.nodup_append]
      refine ⟨h, List.nodup_singleton _, fun a ha b hb hab ↦ hmem ?_⟩
      obtain rfl := List.mem_singleton.1 hb
      exact hab ▸ ha

theorem nodup_getEach (calls : List String) {c : Cache} (h : (c.keys.map Prod.fst).Nodup) :
    ((getEach store calls c).2.keys.map Prod.fst).Nodup := by
  induction calls generalizing c with
  | nil => exact h
  | cons name calls ih => exact ih (nodup_get h name)

open Classical in
theorem size_getEach (calls : List String) :
    (getEach store calls {}).2.size =
      (calls.toFinset.filter fun name ↦ store.firstKey name ≤ calls.count name).card := by
  have hnodup : ((getEach store calls {}).2.keys.map Prod.fst).Nodup :=
    nodup_getEach calls List.nodup_nil
  rw [size, ← List.length_map Prod.fst, ← List.toFinset_card_of_nodup hnodup]
  congr 1
  ext name
  rw [List.mem_toFinset, mem_names_iff, Finset.mem_filter, List.mem_toFinset]
  have h := (has_empty store name).getEach calls
  rw [Nat.zero_add] at h
  rcases h with ⟨hlt, hkey, -⟩ | ⟨k, key, hk, hlt, hkey, -⟩
  · simp [hkey, hlt]
  · rw [hkey, hk, Nat.cast_le]
    simp [List.count_pos_iff.1 (Nat.zero_lt_of_lt hlt), Nat.succ_le_of_lt hlt]

end Cache

open Classical in
/-- The law of the cache: a name has its failures up to the first key and this key from then on, the
store is asked just as often, and no name has a part in what another gets. -/
theorem getEach_law (store : Store) (calls : List String) :
    (∀ p name i, calls[p]? = some name → (calls.take (p + 1)).count name = i →
      ((i : ℕ∞) < store.firstKey name →
        ∃ e, Gives name (store name (i - 1)) (.error e) ∧
          (Cache.getEach store calls {}).1[p]? = some (.error e)) ∧
      (∀ k : ℕ, store.firstKey name = k → k ≤ i →
        ∃ key : Key, store name (k - 1) = .ok (Base64.encode key.val) ∧
          (Cache.getEach store calls {}).1[p]? = some (.ok key))) ∧
    (∀ name, ((Cache.getEach store calls {}).2.asked name : ℕ∞) =
      min (calls.count name : ℕ∞) (store.firstKey name)) ∧
    (Cache.getEach store calls {}).2.size =
      (calls.toFinset.filter fun name ↦ store.firstKey name ≤ calls.count name).card ∧
    (∀ more, (Cache.getEach store calls {}).2.size ≤
      (Cache.getEach store (calls ++ more) {}).2.size) ∧
    ((Cache.getEach store calls {}).2.isEmpty = true ↔
      (Cache.getEach store calls {}).2.size = 0) ∧
    (∀ other calls' name, other name = store name → calls'.count name = calls.count name →
      Cache.resultsFor name calls' (Cache.getEach other calls' {}).1 =
        Cache.resultsFor name calls (Cache.getEach store calls {}).1) := by
  refine ⟨?_, ?_, Cache.size_getEach calls, ?_, ?_, ?_⟩
  · intro p name i hp hi
    have hr := Cache.getElem?_getEach calls (Cache.has_empty store name) hp
    rw [List.take_add_one, hp, Option.toList_some, List.count_append, List.count_cons_self,
      List.count_nil, Nat.zero_add] at hi
    rw [hr, Nat.zero_add]
    subst hi
    refine ⟨?_, ?_⟩
    · intro hlt
      obtain ⟨e, he⟩ := Store.lt_firstKey.1 hlt _ (Nat.lt_succ_self _)
      refine ⟨e, gives_iff.2 he, ?_⟩
      rw [Store.answer_of_le (lt_trans (Nat.cast_lt.2 (Nat.lt_succ_self _)) hlt), he]
    · intro k hk hle
      obtain ⟨j, rfl⟩ := Store.exists_succ_of_firstKey hk
      obtain ⟨key, hkey⟩ := (Store.firstKey_eq_succ.1 hk).1
      refine ⟨key, keyOfReply_eq_ok.1 hkey, ?_⟩
      rw [Store.answer_of_firstKey hk (Nat.le_of_succ_le_succ hle), hkey]
  · intro name
    have h := (Cache.has_empty store name).getEach calls
    rw [Nat.zero_add] at h
    rcases h with ⟨hlt, -, hasked⟩ | ⟨k, key, hk, hlt, -, -, hasked⟩
    · rw [hasked, min_eq_left hlt.le]
    · rw [hasked, hk, min_eq_right (Nat.cast_le.2 (Nat.succ_le_of_lt hlt))]
  · intro more
    rw [Cache.getEach_append]
    exact Cache.size_le_size_getEach store more _
  · simp [Cache.isEmpty]
  · intro other calls' name hs hc
    rw [Cache.resultsFor_getEach calls' (Cache.has_empty other name),
      Cache.resultsFor_getEach calls (Cache.has_empty store name), hc]
    exact List.map_congr_left fun i _ ↦ Store.answer_congr hs i

theorem getEach_law_script :
    let key : Key := ⟨List.replicate 32 0x42, rfl⟩
    let later : Key := ⟨List.replicate 32 0x43, rfl⟩
    let store := Store.ofScript fun name ↦ if name = "a" then
      [.error .noText, .ok (Base64.encode key.val), .ok (Base64.encode later.val)] else []
    let results := (Cache.getEach store ["a", "b", "a", "a"] {}).1
    store.firstKey "a" = (2 : ℕ) ∧ results[0]? = some (.error (.notFetched "a" .noText)) ∧
      results[2]? = some (.ok key) ∧ results[3]? = some (.ok key) := by
  intro key later store results
  have hr : keyOfReply "a" (store "a" 1) = .ok key := keyOfReply_eq_ok.2 rfl
  have hk : store.firstKey "a" = (1 + 1 : ℕ) := by
    refine Store.firstKey_eq_succ.2 ⟨⟨key, hr⟩, fun i hi ↦ ?_⟩
    obtain rfl : i = 0 := Nat.lt_one_iff.1 hi
    exact ⟨_, rfl⟩
  obtain ⟨h, -⟩ := getEach_law store ["a", "b", "a", "a"]
  obtain ⟨e, he, h₀⟩ := (h 0 "a" 1 rfl rfl).1 (hk ▸ Nat.cast_lt.2 (by decide))
  obtain ⟨key₂, hr₂, h₂⟩ := (h 2 "a" 2 rfl rfl).2 2 hk (by decide)
  obtain ⟨key₃, hr₃, h₃⟩ := (h 3 "a" 3 rfl rfl).2 2 hk (by decide)
  obtain rfl : .notFetched "a" .noText = e := Except.error.inj (gives_iff.1 he)
  obtain rfl := Except.ok.inj (hr.symm.trans (keyOfReply_eq_ok.2 hr₂))
  obtain rfl := Except.ok.inj (hr.symm.trans (keyOfReply_eq_ok.2 hr₃))
  exact ⟨hk, h₀, h₂, h₃⟩

end ColumnFunctions.Secret
