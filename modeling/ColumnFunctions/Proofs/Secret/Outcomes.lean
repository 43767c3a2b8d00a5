import ColumnFunctions.Proofs.Secret.FirstKey
import ColumnFunctions.Proofs.Secret.Order

namespace ColumnFunctions.Secret

def Store.after (store : Store) (cache : Cache) : Store := fun name i ↦
  store name (cache.asked name + i)

namespace Lookups

variable {store : Store} {cache : Cache} {past : List Move} {s : Lookups} {name : String}

theorem Follows.number_eq {log : List Fetch} (h : Follows store cache log s) {j : Nat} {f : Fetch}
    (hf : (log.filter (·.name = name))[j]? = some f) :
    f ∈ log ∧ f.name = name ∧ f.number = cache.asked name + j := by
  obtain ⟨hmem, hn⟩ := List.mem_filter.1 (List.mem_of_getElem? hf)
  refine ⟨hmem, of_decide_eq_true hn, ?_⟩
  have hnum := congrArg (·[j]?) (h.numbers name)
  simp only [List.getElem?_map, hf, Option.map_some] at hnum
  obtain ⟨hlt, hj⟩ := List.getElem?_eq_some_iff.1 hnum.symm
  rw [← hj, List.getElem_range']
  omega

/-- A caller that is done got what its own request said, or the key of the name. -/
theorem Follows.result_eq {log : List Fetch} (h : Follows store cache log s) {i : Nat} {c : Caller}
    {r : Except Failure Key} (hc : s.callers[i]? = some c) (hr : c.phase = .done r) :
    (∃ f ∈ log, f.caller = i ∧ f.name = c.name ∧ r = keyOfReply c.name (store c.name f.number)) ∨
      (∀ f ∈ log, f.caller ≠ i) ∧ ∃ key, r = .ok key ∧ s.keyOf c.name = some key := by
  by_cases hi : ∃ f ∈ log, f.caller = i
  · obtain ⟨f, hf, rfl⟩ := hi
    obtain ⟨d, hd, hn, ht⟩ := h.told f hf
    obtain rfl := Option.some.inj (hc.symm.trans hd)
    rw [hr] at ht
    exact .inl ⟨f, hf, rfl, hn.symm, by rw [hn]; exact ht⟩
  · refine .inr ⟨fun f hf hfi ↦ hi ⟨f, hf, hfi⟩, ?_⟩
    cases r with
    | ok key => exact ⟨key, rfl, h.shared i c key hc hr⟩
    | error e => exact absurd (h.made i c hc (by rw [hr]; rfl)) hi

theorem Follows.key_eq {log : List Fetch} (h : Follows store cache log s)
    (hk : cache.key? name = none) {key : Key} (hkey : s.keyOf name = some key) :
    ∃ j f, (log.filter (·.name = name))[j]? = some f ∧
      keyOfReply name (store name (cache.asked name + j)) = .ok key := by
  rcases h.source name key hkey with hc | ⟨f, hf, hn, hr⟩
  · rw [hk] at hc
    cases hc
  · have hmem : f ∈ log.filter (·.name = name) := List.mem_filter.2 ⟨hf, decide_eq_true hn⟩
    obtain ⟨j, hj⟩ := List.mem_iff_getElem?.1 hmem
    obtain ⟨-, -, hnum⟩ := h.number_eq hj
    exact ⟨j, f, hj, hnum ▸ hr⟩

/-- Of the requests for a name all but the last have failed. -/
theorem Follows.error_of_lt {log : List Fetch} (h : Follows store cache log s) {j l : Nat}
    {f : Fetch} (hf : (log.filter (·.name = name))[l]? = some f) (hj : j < l) :
    ∃ e, keyOfReply name (store name (cache.asked name + j)) = .error e := by
  obtain ⟨hl, -⟩ := List.getElem?_eq_some_iff.1 hf
  have hg : (log.filter (·.name = name))[j]? = some (log.filter (·.name = name))[j] :=
    List.getElem?_eq_getElem (Nat.lt_trans hj hl)
  obtain ⟨-, hn, hnum⟩ := h.number_eq hg
  obtain ⟨-, hn', -⟩ := h.number_eq hf
  have hpair := List.pairwise_iff_getElem.1 (h.last.filter _) j l (Nat.lt_trans hj hl) hl hj
  obtain ⟨hl', hfl⟩ := List.getElem?_eq_some_iff.1 hf
  obtain ⟨e, he⟩ := hpair (by rw [hn, hfl, hn'])
  rw [hn, hnum] at he
  exact ⟨e, he⟩

theorem Follows.le_firstKey {log : List Fetch} (h : Follows store cache log s) {l : Nat} {f : Fetch}
    (hf : (log.filter (·.name = name))[l]? = some f) :
    (l : ℕ∞) < (store.after cache).firstKey name :=
  Store.lt_firstKey.2 fun _ hj ↦ h.error_of_lt hf hj

theorem joined_of_filter {past : List Move} (ho : Ordered past s) {l : Nat} {f : Fetch}
    (hf : ((fetches past).filter (·.name = name))[l]? = some f) :
    (joined past name)[l]? = some f.caller := by
  obtain ⟨t, ht⟩ := ho.earlier name
  have hl : (fetchers past name)[l]? = some f.caller := by
    rw [fetchers, List.getElem?_map, hf, Option.map_some]
  rw [← ht, List.getElem?_append_left (List.getElem?_eq_some_iff.1 hl).1, hl]

/-- A caller that joined the queue for an unknown key gets what its place in the queue has. -/
theorem Follows.answer_of_joined (h : Follows store cache (fetches past) s) (ho : Ordered past s)
    (hk : cache.key? name = none) {i j : Nat} {c : Caller} {r : Except Failure Key}
    (hc : s.callers[i]? = some c) (hn : c.name = name) (hr : c.phase = .done r)
    (hj : (joined past name)[j]? = some i) : r = (store.after cache).answer name j := by
  subst hn
  rcases h.result_eq hc hr with ⟨f, hf, rfl, hn, hfr⟩ | ⟨hout, key, rfl, hkey⟩
  · -- Requests are made in the order of the queue, so the caller's has the number of its place.
    have hmem : f ∈ (fetches past).filter (·.name = c.name) :=
      List.mem_filter.2 ⟨hf, decide_eq_true hn⟩
    obtain ⟨l, hl⟩ := List.mem_iff_getElem?.1 hmem
    have hjl : l = j := by
      refine (List.getElem?_inj (List.getElem?_eq_some_iff.1 (joined_of_filter ho hl)).1
        (ho.once c.name)).1 ?_
      rw [joined_of_filter ho hl, hj]
    subst hjl
    rw [Store.answer_of_le (h.le_firstKey hl), hfr, (h.number_eq hl).2.2]
    rfl
  · -- Everyone before the caller who made no request got the key of an earlier place.
    obtain ⟨l, f, hl, hkr⟩ := h.key_eq hk hkey
    have hfirst : (store.after cache).firstKey c.name = (l + 1 : ℕ) :=
      Store.firstKey_eq_succ.2 ⟨⟨key, hkr⟩, fun _ hj ↦ h.error_of_lt hl hj⟩
    have hle : l ≤ j := by
      by_contra hlt
      obtain ⟨hl', -⟩ := List.getElem?_eq_some_iff.1 hl
      have hg := List.getElem?_eq_getElem (Nat.lt_trans (Nat.lt_of_not_le hlt) hl')
      have hi := joined_of_filter ho hg
      rw [hj] at hi
      exact hout _ (h.number_eq hg).1 (Option.some.inj hi).symm
    rw [Store.answer_of_firstKey hfirst hle]
    exact hkr.symm

/-- A caller that came too late for the queue gets the first key. -/
theorem Follows.answer_of_not_joined (h : Follows store cache (fetches past) s)
    (ho : Ordered past s) (hk : cache.key? name = none) {i : Nat} {c : Caller}
    {r : Except Failure Key} (hc : s.callers[i]? = some c) (hn : c.name = name)
    (hr : c.phase = .done r) (hi : i ∉ joined past name) :
    ∃ k : ℕ, (store.after cache).firstKey name = (k + 1 : ℕ) ∧
      r = keyOfReply name (store.after cache name k) := by
  subst hn
  rcases h.result_eq hc hr with ⟨f, hf, rfl, hn, -⟩ | ⟨-, key, rfl, hkey⟩
  · have hmem : f ∈ (fetches past).filter (·.name = c.name) :=
      List.mem_filter.2 ⟨hf, decide_eq_true hn⟩
    exact absurd ((ho.earlier c.name).subset (List.mem_map.2 ⟨f, hmem, rfl⟩)) hi
  · obtain ⟨l, f, hl, hkr⟩ := h.key_eq hk hkey
    exact ⟨l, Store.firstKey_eq_succ.2 ⟨⟨key, hkr⟩, fun _ hj ↦ h.error_of_lt hl hj⟩, hkr.symm⟩

end Lookups

end ColumnFunctions.Secret
