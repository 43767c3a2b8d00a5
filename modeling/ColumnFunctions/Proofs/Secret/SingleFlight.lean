import ColumnFunctions.Proofs.Secret.InTurn
import ColumnFunctions.Proofs.Secret.Outcomes
import ColumnFunctions.Proofs.Secret.Progress

namespace ColumnFunctions.Secret

theorem getElem?_filterMap_of_some {α β : Type} {f : α → Option β} {l : List α}
    (h : ∀ a ∈ l, ∃ b, f a = some b) (p : Nat) : (l.filterMap f)[p]? = l[p]?.bind f := by
  induction l generalizing p with
  | nil => rfl
  | cons a l ih =>
    obtain ⟨b, hb⟩ := h a (List.mem_cons_self ..)
    rw [List.filterMap_cons_some hb]
    cases p with
    | zero => simp [hb]
    | succ p => simpa using ih (fun a ha ↦ h a (List.mem_cons_of_mem _ ha)) p

/-- Callers that take their steps in turn get what they would get one after the other. -/
theorem getElem?_getTogether (store : Store) (cache : Cache) {names : List String} {p : Nat}
    {name : String} (hp : names[p]? = some name) :
    (getTogether store names cache).1[p]? = some (match cache.key? name with
      | some key => .ok key
      | none => (store.after cache).answer name ((names.take p).count name)) := by
  have h := (Lookups.follows_start store cache names).run (Lookups.inTurn names.length)
  have ho := (Lookups.ordered_start cache names).run (Lookups.sound_start cache names) store
    (Lookups.inTurn names.length)
  rw [List.nil_append] at h ho
  obtain ⟨phase, hc⟩ := Lookups.getElem?_run_start store cache hp (Lookups.inTurn names.length)
  -- All callers are done, so their results stand at their own places.
  obtain ⟨r, rfl⟩ := Lookups.done_of_inTurn store cache names hc
  have hr : (getTogether store names cache).1[p]? = some r := by
    rw [getTogether, getElem?_filterMap_of_some, hc]
    · rfl
    · intro c hmem
      obtain ⟨i, hi⟩ := List.mem_iff_getElem?.1 hmem
      obtain ⟨r, hr⟩ := Lookups.done_of_inTurn store cache names hi
      exact ⟨r, by rw [hr]; rfl⟩
  rw [hr]
  cases hk : cache.key? name with
  | none =>
    exact congrArg some
      (h.answer_of_joined ho hk hc rfl rfl (Lookups.getElem?_joined_inTurn store hk hp))
  | some key =>
    rcases h.result_eq hc rfl with ⟨f, hf, -, hn, -⟩ | ⟨-, key', rfl, hkey⟩
    · have hu := h.unknown f hf
      rw [show f.name = name from hn, hk] at hu
      cases hu
    · rw [h.kept name key hk] at hkey
      cases hkey
      rfl

theorem length_getTogether (store : Store) (names : List String) (cache : Cache) :
    (getTogether store names cache).1.length = names.length := by
  apply Nat.le_antisymm
  · refine (List.length_filterMap_le ..).trans (Nat.le_of_eq ?_)
    rw [(Lookups.sound_start cache names).length_run, Lookups.length_start]
  · by_contra hlt
    have hp := List.getElem?_eq_getElem (Nat.lt_of_not_le hlt)
    have hr := getElem?_getTogether store cache hp
    exact absurd (List.getElem?_eq_some_iff.1 hr).1 (Nat.lt_irrefl _)

section Replies

variable {store : Store} {cache : Cache} {name : String} {k : ℕ} {key : Key} {errors : ℕ → Failure}
  (hbefore : ∀ j < k, Gives name (store name (cache.asked name + j)) (.error (errors j)))
  (hkey : store name (cache.asked name + k) = .ok (Base64.encode key.val))

include hbefore hkey

theorem firstKey_after : (store.after cache).firstKey name = (k + 1 : ℕ) :=
  Store.firstKey_eq_succ.2
    ⟨⟨key, keyOfReply_eq_ok.2 hkey⟩, fun j hj ↦ ⟨errors j, gives_iff.1 (hbefore j hj)⟩⟩

theorem answer_after_of_lt {j : ℕ} (hj : j < k) :
    (store.after cache).answer name j = .error (errors j) := by
  have hlt : (j : ℕ∞) < (store.after cache).firstKey name := by
    rw [firstKey_after hbefore hkey]
    exact Nat.cast_lt.2 (Nat.lt_succ_of_lt hj)
  rw [Store.answer_of_le hlt]
  exact gives_iff.1 (hbefore j hj)

theorem answer_after_of_le {j : ℕ} (hj : k ≤ j) : (store.after cache).answer name j = .ok key := by
  rw [Store.answer_of_firstKey (firstKey_after hbefore hkey) hj]
  exact keyOfReply_eq_ok.2 hkey

/-- A caller that did not come soon enough for one of the failures gets the key. -/
theorem result_of_not_mem_take (hk : cache.key? name = none) {past : List Move} {s : Lookups}
    (h : Lookups.Follows store cache (fetches past) s) (ho : Lookups.Ordered past s) {i : ℕ}
    {c : Caller} {r : Except Failure Key} (hc : s.callers[i]? = some c) (hn : c.name = name)
    (hr : c.phase = .done r) (hi : i ∉ (joined past name).take k) : r = .ok key := by
  by_cases hmem : i ∈ joined past name
  · obtain ⟨j, hj⟩ := List.mem_iff_getElem?.1 hmem
    have hle : k ≤ j := by
      by_contra hlt
      refine hi (List.mem_of_getElem? (i := j) ?_)
      rw [List.getElem?_take_of_lt (Nat.lt_of_not_le hlt), hj]
    rw [h.answer_of_joined ho hk hc hn hr hj, answer_after_of_le hbefore hkey hle]
  · obtain ⟨k', hk', hr'⟩ := h.answer_of_not_joined ho hk hc hn hr hmem
    obtain rfl : k = k' := by
      rw [firstKey_after hbefore hkey] at hk'
      exact Nat.succ_injective (by exact_mod_cast hk')
    rw [hr']
    exact keyOfReply_eq_ok.2 hkey

/-- Look-ups of one unknown key: a failure for each until the first reply with a key, and this key
for all others. -/
theorem getTogether_replicate (hk : cache.key? name = none) (n : ℕ) :
    (getTogether store (List.replicate n name) cache).1 =
      (List.range (min n k)).map (fun j ↦ .error (errors j)) ++
        List.replicate (n - k) (.ok key) := by
  refine List.ext_getElem? fun p ↦ ?_
  by_cases hp : p < n
  · have hname : (List.replicate n name)[p]? = some name := by
      rw [List.getElem?_replicate, if_pos hp]
    rw [getElem?_getTogether store cache hname, hk, List.take_replicate, List.count_replicate_self,
      Nat.min_eq_left (Nat.le_of_lt hp)]
    by_cases hpk : p < k
    · rw [List.getElem?_append_left (by simp; omega), List.getElem?_map,
        List.getElem?_range (by omega), answer_after_of_lt hbefore hkey hpk]
      rfl
    · rw [List.getElem?_append_right (by simp; omega), List.getElem?_replicate,
        if_pos (by simp; omega), answer_after_of_le hbefore hkey (Nat.not_lt.1 hpk)]
  · rw [List.getElem?_eq_none (by rw [length_getTogether, List.length_replicate]; omega),
      List.getElem?_eq_none (by simp; omega)]

end Replies

/-- Single flight, whatever the callers, the cache, the store and the order of steps. A name has one
request at a time and none once there is a key, a caller makes one request at most and fails only by
its own, and failures go to callers in the order in which they joined the queue. -/
theorem single_flight (store : Store) (cache : Cache) (names : List String) (schedule : List Nat) :
    let past := (Lookups.start cache names).history store schedule
    let s := (Lookups.start cache names).run store schedule
    s.requests = cache.requests ++ (fetches past).map (·.name) ∧
    (∀ name, ((fetches past).filter (·.name = name)).map (·.number) =
      List.range' (cache.asked name) ((fetches past).countP (·.name = name))) ∧
    (∀ (i j : Nat) (c d : Caller), s.callers[i]? = some c → s.callers[j]? = some d →
      c.name = d.name → c.phase.inFlight = true → d.phase.inFlight = true → i = j) ∧
    ((fetches past).Pairwise fun f g ↦
      f.name = g.name → ∃ e, Gives f.name (store f.name f.number) (.error e)) ∧
    (∀ name key more, s.cache.key? name = some key →
      (s.run store more).cache.key? name = some key ∧
        ∀ f ∈ fetches (s.history store more), f.name ≠ name) ∧
    (∀ (i : Nat) (c : Caller) key, s.callers[i]? = some c → c.phase = .done (.ok key) →
      s.cache.key? c.name = some key ∧ ∀ f ∈ fetches past, f.name = c.name →
        ∀ key' : Key, store f.name f.number = .ok (Base64.encode key'.val) → key = key') ∧
    (∀ (i : Nat) (c : Caller) e, s.callers[i]? = some c → c.phase = .done (.error e) →
      ∃ f ∈ fetches past, f.caller = i ∧ f.name = c.name ∧
        Gives c.name (store c.name f.number) (.error e)) ∧
    ((fetches past).map (·.caller)).Nodup ∧
    (∀ name, fetchers past name <+: joined past name) ∧
    (∀ name (k : ℕ) (key : Key) (errors : ℕ → Failure), cache.key? name = none →
      (∀ j < k, Gives name (store name (cache.asked name + j)) (.error (errors j))) →
      store name (cache.asked name + k) = .ok (Base64.encode key.val) →
      (∀ (i : Nat) (c : Caller) r, s.callers[i]? = some c → c.name = name → c.phase = .done r →
        (∀ j < k, (joined past name)[j]? = some i → r = .error (errors j)) ∧
        (i ∉ (joined past name).take k → r = .ok key)) ∧
      ∀ n, (getTogether store (List.replicate n name) cache).1 =
        (List.range (min n k)).map (fun j ↦ .error (errors j)) ++
          List.replicate (n - k) (.ok key)) := by
  intro past s
  have h := (Lookups.follows_start store cache names).run schedule
  have ho := (Lookups.ordered_start cache names).run (Lookups.sound_start cache names) store
    schedule
  rw [List.nil_append] at h ho
  refine ⟨h.requests, h.numbers, ?_, ?_, ?_, ?_, ?_, h.once, ho.earlier, ?_⟩
  · intro i j c d hi hj hn hci hdj
    have hh := (h.inFlight i c hi hci).2
    rw [hn, (h.inFlight j d hj hdj).2] at hh
    exact (Option.some.inj hh).symm
  · simpa only [gives_iff] using h.last
  · intro name key more hk
    rw [h.key?_cache] at hk
    rw [(h.toSound.run store more).key?_cache]
    exact h.toSound.keyOf_run store more hk
  · intro i c key hc hp
    have hk := h.shared i c key hc hp
    rw [h.key?_cache]
    exact ⟨hk, fun f hf hn key' hr ↦ h.keyOf_of_fetch hf (keyOfReply_eq_ok.2 hr) (hn ▸ hk)⟩
  · intro i c e hc hp
    rcases h.result_eq hc hp with ⟨f, hf, hi, hn, hr⟩ | ⟨-, key, hr, -⟩
    · exact ⟨f, hf, hi, hn, gives_iff.2 hr.symm⟩
    · cases hr
  · intro name k key errors hk hbefore hkey
    refine ⟨fun i c r hc hn hr ↦ ⟨?_, ?_⟩, getTogether_replicate hbefore hkey hk⟩
    · intro j hj hij
      rw [h.answer_of_joined ho hk hc hn hr hij, answer_after_of_lt hbefore hkey hj]
    · exact result_of_not_mem_take hbefore hkey hk h ho hc hn hr

theorem single_flight_script :
    let key : Key := ⟨List.replicate 32 0x42, rfl⟩
    let store := Store.ofScript fun _ ↦ [.error .noText, .ok (Base64.encode key.val)]
    let s := (Lookups.start {} ["a", "a", "a"]).run store [0, 0, 0, 1, 1, 1]
    s.callers[0]? = some ⟨"a", .asking 0 0⟩ ∧ s.callers[1]? = some ⟨"a", .queued 0⟩ ∧
      (∀ (i : Nat) (c : Caller), s.callers[i]? = some c → c.name = "a" →
        c.phase.inFlight = true → i = 0) ∧
      (getTogether store (List.replicate 3 "a") {}).1 =
        [.error (.notFetched "a" .noText), .ok key, .ok key] := by
  intro key store s
  have h₀ : s.callers[0]? = some ⟨"a", .asking 0 0⟩ := rfl
  have hbefore : ∀ j < 1, Gives "a" (store "a" (Cache.asked {} "a" + j))
      (.error (.notFetched "a" .noText)) := by
    intro j hj
    obtain rfl := Nat.lt_one_iff.1 hj
    exact .notFetched .noText
  obtain ⟨-, -, halone, -, -, -, -, -, -, htogether⟩ :=
    single_flight store {} ["a", "a", "a"] [0, 0, 0, 1, 1, 1]
  refine ⟨h₀, rfl, fun i c hc hn hf ↦ halone i 0 c _ hc h₀ hn hf rfl, ?_⟩
  exact (htogether "a" 1 key _ rfl hbefore rfl).2 3

end ColumnFunctions.Secret
