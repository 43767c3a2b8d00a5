import ColumnFunctions.Proofs.Secret.Turn
import Mathlib.Data.List.Nodup

namespace ColumnFunctions.Secret.Lookups

variable {s : Lookups}

theorem Sound.slotted_step (h : Sound s) (store : Store) (i : Nat) :
    Slotted (s.step store i) := by
  cases hc : s.callers[i]? with
  | none => simpa only [step, hc] using h.toSlotted
  | some c =>
    obtain ⟨name, p⟩ := c
    cases p with
    | begun =>
      simp only [step, hc, arrive]
      cases hl : s.current.lookup name with
      | some slot => exact h.of_eq rfl rfl
      | none => exact (h.make hl).of_eq rfl rfl
    | arrived slot =>
      simp only [step, hc, enqueue]
      cases s.key? slot with
      | some key => exact h.of_eq rfl rfl
      | none =>
        exact (h.modifySlot (h.held i _ slot hc rfl)
          (f := fun x ↦ { x with queue := x.queue ++ [i] }) (fun x ↦ rfl)
          fun x hx ↦ hx).of_eq rfl rfl
    | queued slot =>
      simp only [step, hc, request]
      cases s.key? slot with
      | some key => exact h.of_eq rfl rfl
      | none =>
        dsimp only
        split
        · exact h.of_eq rfl rfl
        · exact h.toSlotted
    | asking slot number =>
      simp only [step, hc]
      exact h.of_eq rfl rfl
    | answered slot reply =>
      simp only [step, hc, resolve]
      cases keyOfReply name reply with
      | ok key =>
        exact (h.modifySlot (h.held i _ slot hc rfl)
          (f := fun x ↦ { x with key := some key, queue := [] }) (fun x ↦ rfl)
          fun x hx ↦ by cases hx).of_eq rfl rfl
      | error e =>
        exact (h.modifySlot (h.held i _ slot hc rfl) (f := fun x ↦ { x with queue := x.queue.tail })
          (fun x ↦ rfl) fun x hx ↦ hx).of_eq rfl rfl
    | failed slot e =>
      simp only [step, hc, discard]
      split
      · exact (h.remove name).of_eq rfl rfl
      · exact h.of_eq rfl rfl
    | done result => simpa only [step, hc] using h.toSlotted

theorem Turn.slot?_eq {store : Store} {s s' : Lookups} {i : Nat} {name : String} {p p' : Phase}
    {slot : Nat} (h : Turn store s s' i name p p') (hp : p ≠ .begun) (hs : p'.slot? = some slot) :
    p.slot? = some slot := by
  cases h with
  | find => exact absurd rfl hp
  | join | wait | ask | hear | fail => exact hs
  | take | wake | settle | leave | rest => cases hs

theorem current_step (store : Store) {i : Nat} {name : String} {p : Phase}
    (hc : s.callers[i]? = some ⟨name, p⟩) (hb : p ≠ .begun) (hf : ∀ slot e, p ≠ .failed slot e) :
    (s.step store i).current = s.current := by
  cases p with
  | begun => exact absurd rfl hb
  | failed slot e => exact absurd rfl (hf slot e)
  | asking slot number => simp only [step, hc, setPhase]
  | done result => simp only [step, hc]
  | arrived slot =>
    simp only [step, hc, enqueue]
    cases s.key? slot <;> rfl
  | queued slot =>
    simp only [step, hc, request]
    cases s.key? slot with
    | some key => rfl
    | none =>
      dsimp only
      split <;> rfl
  | answered slot reply =>
    simp only [step, hc, resolve]
    cases keyOfReply name reply <;> rfl

theorem Sound.held_set (h : Sound s) {s' : Lookups} {i : Nat} {name : String} {p' : Phase}
    (hs : s'.callers = s.callers.set i ⟨name, p'⟩)
    (hold : ∀ (j : Nat) (c : Caller) slot, j ≠ i → s.callers[j]? = some c →
      c.phase.slot? = some slot → s.current.lookup c.name = some slot →
        s'.current.lookup c.name = some slot)
    (hnew : ∀ slot, p'.slot? = some slot → s'.current.lookup name = some slot)
    (j : Nat) (c : Caller) (slot : Nat) (hj : s'.callers[j]? = some c)
    (hc : c.phase.slot? = some slot) : s'.current.lookup c.name = some slot := by
  rw [hs] at hj
  rcases getElem?_set_cases hj with ⟨rfl, rfl⟩ | ⟨hji, hj⟩
  · exact hnew slot hc
  · exact hold j c slot hji hj hc (h.held j c slot hj hc)

theorem Sound.held_step (h : Sound s) (store : Store) {i : Nat} {name : String} {p : Phase}
    (hi : s.callers[i]? = some ⟨name, p⟩) (j : Nat) (c : Caller) (slot : Nat)
    (hj : (s.step store i).callers[j]? = some c) (hs : c.phase.slot? = some slot) :
    (s.step store i).current.lookup c.name = some slot := by
  obtain ⟨p', ht, hcallers⟩ := h.turn store hi
  -- Slots are made and removed only at the start and after a failure, and nobody else holds on to
  -- one that is removed.
  refine h.held_set hcallers ?_ ?_ j c slot hj hs
  · intro j d slot hji hj hs hl
    by_cases hb : p = .begun
    · subst hb
      simp only [step, hi, arrive]
      cases hn : s.current.lookup name with
      | some slot' => exact hl
      | none => exact (List.lookup_append ..).trans (by rw [hl, Option.some_or])
    by_cases hf : ∃ slot e, p = .failed slot e
    · obtain ⟨slot', e, rfl⟩ := hf
      simp only [step, hi, discard]
      split
      · next hd =>
        have hne : d.name ≠ name := by
          rintro rfl
          rw [hl] at hd
          obtain rfl := Option.some.inj hd.1
          exact hji (eq_of_countP_le_one hd.2.1 hj hi (decide_eq_true hs) (decide_eq_true rfl))
        exact (lookup_filter_ne _ _).trans ((if_neg hne).trans hl)
      · exact hl
    · rw [current_step store hi hb fun slot e hp ↦ hf ⟨slot, e, hp⟩]
      exact hl
  · intro slot hs
    by_cases hb : p = .begun
    · subst hb
      cases ht with
      | find slot' found =>
        obtain rfl := Option.some.inj hs
        exact found
    have hl := h.held i _ slot hi (ht.slot?_eq hb hs)
    by_cases hf : ∃ slot e, p = .failed slot e
    · obtain ⟨slot', e, rfl⟩ := hf
      cases ht
      cases hs
    · rw [current_step store hi hb fun slot e hp ↦ hf ⟨slot, e, hp⟩]
      exact hl

theorem waiting_set {s' : Lookups} {i : Nat} {name : String} {p' : Phase}
    (hi : i < s.callers.length) (hs : s'.callers = s.callers.set i ⟨name, p'⟩) (m : String)
    (j : Nat) :
    s'.Waiting m j ↔ if j = i then m = name ∧ p'.waits = true else s.Waiting m j := by
  rw [Waiting, hs]
  split
  · next hji =>
    subst hji
    constructor
    · rintro ⟨c, hc, rfl, hw⟩
      rcases getElem?_set_cases hc with ⟨-, rfl⟩ | ⟨hne, -⟩
      · exact ⟨rfl, hw⟩
      · exact absurd rfl hne
    · rintro ⟨rfl, hw⟩
      exact ⟨_, List.getElem?_set_self hi, rfl, hw⟩
  · next hji => rw [List.getElem?_set_ne (Ne.symm hji), Waiting]

theorem waiting_self {i : Nat} {name : String} {p : Phase}
    (hc : s.callers[i]? = some ⟨name, p⟩) (m : String) :
    s.Waiting m i ↔ m = name ∧ p.waits = true := by
  constructor
  · rintro ⟨c, h, rfl, hw⟩
    obtain rfl := Option.some.inj (hc.symm.trans h)
    exact ⟨rfl, hw⟩
  · rintro ⟨rfl, hw⟩
    exact ⟨_, hc, rfl, hw⟩

namespace Turn

variable {store : Store} {s' : Lookups} {i : Nat} {name : String} {p p' : Phase}

theorem frame (ht : Turn store s s' i name p p') {m : String} (hm : m ≠ name) :
    s'.keyOf m = s.keyOf m ∧ s'.queueOf m = s.queueOf m := by
  cases ht with
  | join slot hk out hkey hq hr => rw [hkey, hq, Function.update_of_ne hm]; exact ⟨rfl, rfl⟩
  | ask slot hk hh hkey hq hr => rw [hkey, hq]; exact ⟨rfl, rfl⟩
  | settle slot reply key hv hk hh hkey hq hr =>
    rw [hkey, hq, Function.update_of_ne hm, Function.update_of_ne hm]; exact ⟨rfl, rfl⟩
  | fail slot reply e hv hk hh hkey hq hr =>
    rw [hkey, hq, Function.update_of_ne hm]; exact ⟨rfl, rfl⟩
  | find | take | wake | wait | hear | leave | rest =>
    next same => rw [same.keyOf, same.queueOf]; exact ⟨rfl, rfl⟩

theorem keyOf_of_some (ht : Turn store s s' i name p p') {m : String} {key : Key}
    (h : s.keyOf m = some key) : s'.keyOf m = some key := by
  by_cases hm : m = name
  · subst hm
    cases ht with
    | join slot hk | ask slot hk | settle slot reply key' hv hk | fail slot reply e hv hk =>
      rw [h] at hk
      cases hk
    | find | take | wake | wait | hear | leave | rest =>
      next same => rw [same.keyOf, h]
  · rw [(ht.frame hm).1, h]

theorem head? (ht : Turn store s s' i name p p') {m : String} {j : Nat} (hj : j ≠ i)
    (hk : s.keyOf m = none) (hh : (s.queueOf m).head? = some j) :
    s'.keyOf m = none ∧ (s'.queueOf m).head? = some j := by
  by_cases hm : m = name
  · subst hm
    cases ht with
    | join slot hk' out hkey hq hr =>
      rw [hkey, hq, Function.update_self, List.head?_append, hh, Option.some_or]
      exact ⟨hk, rfl⟩
    | ask slot hk' hh' hkey hq hr => rw [hkey, hq]; exact ⟨hk, hh⟩
    | settle slot reply key hv hk' hh' | fail slot reply e hv hk' hh' =>
      rw [hh] at hh'
      exact absurd (Option.some.inj hh') hj
    | find | take | wake | wait | hear | leave | rest =>
      next same => rw [same.keyOf, same.queueOf]; exact ⟨hk, hh⟩
  · rw [(ht.frame hm).1, (ht.frame hm).2]
    exact ⟨hk, hh⟩

theorem inFlight (ht : Turn store s s' i name p p') (hp : p'.inFlight = true) :
    s'.keyOf name = none ∧ (s'.queueOf name).head? = some i := by
  cases ht with
  | ask slot hk hh hkey hq hr => rw [hkey, hq]; exact ⟨hk, hh⟩
  | hear slot number hk hh same => rw [same.keyOf, same.queueOf]; exact ⟨hk, hh⟩
  | find | take | join | wake | wait | settle | fail | leave | rest => cases hp

theorem nodup (ht : Turn store s s' i name p p') (h : ∀ m, (s.queueOf m).Nodup) (m : String) :
    (s'.queueOf m).Nodup := by
  by_cases hm : m = name
  · subst hm
    cases ht with
    | join slot hk out hkey hq hr =>
      rw [hq, Function.update_self, List.nodup_append]
      exact ⟨h m, List.nodup_singleton _, fun a ha b hb hab ↦
        out (List.mem_singleton.1 hb ▸ hab ▸ ha)⟩
    | ask slot hk hh hkey hq hr => rw [hq]; exact h m
    | settle slot reply key hv hk hh hkey hq hr =>
      rw [hq, Function.update_self]
      exact List.nodup_nil
    | fail slot reply e hv hk hh hkey hq hr =>
      rw [hq, Function.update_self]
      exact (h m).tail
    | find | take | wake | wait | hear | leave | rest =>
      next same => rw [same.queueOf]; exact h m
  · rw [(ht.frame hm).2]
    exact h m

theorem mem_queueOf (ht : Turn store s s' i name p p') (hc : s.callers[i]? = some ⟨name, p⟩)
    (hn : ∀ m, (s.queueOf m).Nodup)
    (h : ∀ m j, j ∈ s.queueOf m ↔ s.keyOf m = none ∧ s.Waiting m j) (m : String) (j : Nat) :
    j ∈ s'.queueOf m ↔
      s'.keyOf m = none ∧ if j = i then m = name ∧ p'.waits = true else s.Waiting m j := by
  by_cases hm : m = name
  · subst hm
    have hself : i ∈ s.queueOf m ↔ s.keyOf m = none ∧ p.waits = true := by
      rw [h, waiting_self hc]
      simp
    cases ht with
    | join slot hk out hkey hq hr =>
      rw [hkey, hq, Function.update_self, List.mem_append, List.mem_singleton, h]
      by_cases hj : j = i <;> simp [hj, hk, Phase.waits]
    | ask slot hk hh hkey hq hr =>
      rw [hkey, hq]
      by_cases hj : j = i
      · simp [hj, hself, Phase.waits]
      · simp [hj, h]
    | wake slot key known same => simp [same.keyOf, same.queueOf, h, known]
    | settle slot reply key hv hk hh hkey hq hr =>
      rw [hkey, hq, Function.update_self, Function.update_self]
      simp
    | fail slot reply e hv hk hh hkey hq hr =>
      obtain ⟨l, hl⟩ := List.head?_eq_some_iff.1 hh
      -- The first leaves for good, since nobody is in a queue twice.
      have hnl := hn m
      rw [hl, List.nodup_cons] at hnl
      rw [hkey, hq, Function.update_self, hl, List.tail_cons]
      by_cases hj : j = i
      · simp [hj, hnl.1, Phase.waits]
      · have := h m j
        rw [hl, List.mem_cons] at this
        simpa [hj] using this
    | find | take | wait | hear | leave | rest =>
      next same =>
        rw [same.keyOf, same.queueOf]
        by_cases hj : j = i
        · simp [hj, hself, Phase.waits]
        · simp [hj, h]
  · rw [(ht.frame hm).1, (ht.frame hm).2, h]
    by_cases hj : j = i
    · simp [hj, waiting_self hc, hm]
    · simp [hj]

end Turn

theorem Sound.step (h : Sound s) (store : Store) (i : Nat) : Sound (s.step store i) := by
  cases hi : s.callers[i]? with
  | none => simpa only [Lookups.step, hi] using h
  | some c =>
    obtain ⟨name, p⟩ := c
    obtain ⟨p', ht, hcallers⟩ := h.turn store hi
    exact {
      toSlotted := h.slotted_step store i
      held := h.held_step store hi
      nodup := ht.nodup h.nodup
      queued := fun m j ↦ by
        rw [ht.mem_queueOf hi h.nodup h.queued,
          waiting_set (List.getElem?_eq_some_iff.1 hi).1 hcallers]
      inFlight := fun j c hj hf ↦ by
        rw [hcallers] at hj
        rcases getElem?_set_cases hj with ⟨rfl, rfl⟩ | ⟨hji, hj⟩
        · exact ht.inFlight hf
        · obtain ⟨hk, hh⟩ := h.inFlight j c hj hf
          exact ht.head? hji hk hh }

theorem Sound.names_step (h : Sound s) (store : Store) (i : Nat) :
    (s.step store i).callers.map (·.name) = s.callers.map (·.name) := by
  cases hi : s.callers[i]? with
  | none => simp only [Lookups.step, hi]
  | some c =>
    obtain ⟨name, p⟩ := c
    obtain ⟨p', -, hs⟩ := h.turn store hi
    conv_rhs => rw [set_callers_self hi]
    rw [hs, List.map_set, List.map_set]

theorem Sound.run (h : Sound s) (store : Store) (schedule : List Nat) :
    Sound (s.run store schedule) := by
  induction schedule generalizing s with
  | nil => exact h
  | cons i schedule ih => exact ih (h.step store i)

theorem Sound.names_run (h : Sound s) (store : Store) (schedule : List Nat) :
    (s.run store schedule).callers.map (·.name) = s.callers.map (·.name) := by
  induction schedule generalizing s with
  | nil => rfl
  | cons i schedule ih => exact (ih (h.step store i)).trans (h.names_step store i)

theorem run_append (s : Lookups) (store : Store) (schedule more : List Nat) :
    s.run store (schedule ++ more) = (s.run store schedule).run store more :=
  List.foldl_append

theorem Sound.length_step (h : Sound s) (store : Store) (k : Nat) :
    (s.step store k).callers.length = s.callers.length := by
  rw [← List.length_map Caller.name, h.names_step, List.length_map]

theorem Sound.length_run (h : Sound s) (store : Store) (schedule : List Nat) :
    (s.run store schedule).callers.length = s.callers.length := by
  rw [← List.length_map Caller.name, h.names_run, List.length_map]

theorem sound_start (cache : Cache) (names : List String) : Sound (start cache names) where
  named name slot h := by
    obtain ⟨⟨entry, n⟩, hm, he⟩ := List.mem_map.1 h
    cases he
    refine ⟨{ name := entry.1, key := some entry.2 }, ?_, rfl⟩
    rw [start, List.getElem?_map, List.mk_mem_zipIdx_iff_getElem?.1 hm]
    rfl
  first name slot h hk := by
    obtain ⟨⟨entry, n⟩, hm, he⟩ := List.mem_map.1 h
    cases he
    rw [keyOf_start, Cache.key?, List.lookup_eq_none_iff] at hk
    have := hk entry (List.mem_of_getElem? (List.mk_mem_zipIdx_iff_getElem?.1 hm))
    simp at this
  held i c slot hc hs := by
    obtain ⟨name, -, rfl⟩ := getElem?_start.1 hc
    cases hs
  nodup name := by
    rw [queueOf_start]
    exact List.nodup_nil
  queued name i := by
    rw [queueOf_start, Waiting]
    refine ⟨fun h ↦ absurd h List.not_mem_nil, ?_⟩
    rintro ⟨-, c, hc, -, hw⟩
    obtain ⟨name', -, rfl⟩ := getElem?_start.1 hc
    cases hw
  inFlight i c hc hf := by
    obtain ⟨name, -, rfl⟩ := getElem?_start.1 hc
    cases hf

theorem length_start (cache : Cache) (names : List String) :
    (start cache names).callers.length = names.length := List.length_map _

theorem getElem?_run_start (store : Store) (cache : Cache) {names : List String} {i : Nat}
    {name : String} (hi : names[i]? = some name) (schedule : List Nat) :
    ∃ p, ((start cache names).run store schedule).callers[i]? = some ⟨name, p⟩ := by
  have hn := congrArg (·[i]?) ((sound_start cache names).names_run store schedule)
  simp only [names_start, hi, List.getElem?_map] at hn
  obtain ⟨⟨_, p⟩, hc, rfl⟩ := Option.map_eq_some_iff.1 hn
  exact ⟨p, hc⟩

end ColumnFunctions.Secret.Lookups
