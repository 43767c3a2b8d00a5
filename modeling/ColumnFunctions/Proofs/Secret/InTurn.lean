import ColumnFunctions.Proofs.Secret.Order

namespace ColumnFunctions.Secret.Lookups

variable {s : Lookups} {name : String}

theorem history_append (store : Store) (schedule more : List Nat) (s : Lookups) :
    s.history store (schedule ++ more) =
      s.history store schedule ++ (s.run store schedule).history store more := by
  induction schedule generalizing s with
  | nil => rfl
  | cons i schedule ih =>
    rw [List.cons_append, history, ih, history, List.append_assoc]
    rfl

theorem joined_append_list (past more : List Move) (name : String) :
    joined (past ++ more) name = joined past name ++ joined more name := by
  rw [joined, List.filter_append, List.map_append]
  rfl

theorem Sound.step_begun (h : Sound s) (store : Store) {i : Nat}
    (hc : s.callers[i]? = some ⟨name, .begun⟩) :
    ∃ slot, (s.step store i).callers = s.callers.set i ⟨name, .arrived slot⟩ ∧
      (s.step store i).keyOf = s.keyOf ∧ ∀ m, joined (s.move? store i).toList m = [] := by
  obtain ⟨p', hm, ht, hs⟩ := h.move?_eq store hc
  cases ht with
  | find slot found same =>
    refine ⟨slot, hs, same.keyOf, fun m ↦ ?_⟩
    rw [hm]
    rfl

theorem Sound.step_arrived (h : Sound s) (store : Store) {i slot : Nat}
    (hc : s.callers[i]? = some ⟨name, .arrived slot⟩) :
    ∃ p', p'.early = false ∧ (s.step store i).callers = s.callers.set i ⟨name, p'⟩ ∧
      (s.step store i).keyOf = s.keyOf ∧ ∀ m, joined (s.move? store i).toList m =
        if s.keyOf m = none ∧ name = m then [i] else [] := by
  obtain ⟨p', hm, ht, hs⟩ := h.move?_eq store hc
  cases ht with
  | take slot key known same =>
    refine ⟨_, rfl, hs, same.keyOf, fun m ↦ ?_⟩
    rw [hm, if_neg]
    · rfl
    · rintro ⟨hk, rfl⟩
      rw [hk] at known
      cases known
  | join slot hk out hkey hq hr =>
    refine ⟨_, rfl, hs, hkey, fun m ↦ ?_⟩
    rw [hm]
    by_cases hn : name = m
    · subst hn
      rw [if_pos ⟨hk, rfl⟩]
      simp [joined, Move.joins]
    · rw [if_neg fun hkn ↦ hn hkn.2]
      simp [joined, Move.joins, hn]

theorem Sound.step_late (h : Sound s) (store : Store) {i : Nat} {p : Phase}
    (hc : s.callers[i]? = some ⟨name, p⟩) (hp : p.early = false) :
    ∃ p', p'.early = false ∧ (s.step store i).callers = s.callers.set i ⟨name, p'⟩ ∧
      ∀ m, joined (s.move? store i).toList m = [] := by
  obtain ⟨p', hm, ht, hs⟩ := h.move?_eq store hc
  rw [hm]
  cases ht with
  | find | take | join => cases hp
  | wake | wait | ask | hear | settle | fail | leave | rest =>
    exact ⟨_, rfl, hs, fun m ↦ rfl⟩

theorem Sound.run_begun (h : Sound s) (store : Store) {l : List Nat} (hnd : l.Nodup)
    (hl : ∀ i ∈ l, ∃ name, s.callers[i]? = some ⟨name, .begun⟩) :
    (s.run store l).keyOf = s.keyOf ∧ (∀ m, joined (s.history store l) m = []) ∧
      (∀ i ∈ l, ∃ name slot, (s.run store l).callers[i]? = some ⟨name, .arrived slot⟩) ∧
      ∀ i ∉ l, (s.run store l).callers[i]? = s.callers[i]? := by
  induction l generalizing s with
  | nil => exact ⟨rfl, fun m ↦ rfl, fun i hi ↦ absurd hi List.not_mem_nil, fun i _ ↦ rfl⟩
  | cons i l ih =>
    obtain ⟨hil, hnd⟩ := List.nodup_cons.1 hnd
    obtain ⟨name, hc⟩ := hl i (List.mem_cons_self ..)
    obtain ⟨slot, hs, hk, hj⟩ := h.step_begun store hc
    obtain ⟨hk', hj', hin, hout⟩ := ih (h.step store i) hnd fun j hjl ↦ by
      rw [getElem?_of_ne hs fun hji ↦ hil (hji ▸ hjl)]
      exact hl j (List.mem_cons_of_mem _ hjl)
    refine ⟨hk'.trans hk, ?_, ?_, ?_⟩
    · intro m
      rw [history, joined_append_list, hj, hj', List.append_nil]
    · intro j hjm
      rcases List.mem_cons.1 hjm with rfl | hjl
      · exact ⟨name, slot, (hout j hil).trans (getElem?_of_set hc hs)⟩
      · exact hin j hjl
    · intro j hjm
      rw [List.mem_cons, not_or] at hjm
      exact (hout j hjm.2).trans (getElem?_of_ne hs hjm.1)

/-- A round of second steps, in which callers join the queues. -/
theorem Sound.run_arrived (h : Sound s) (store : Store) {l : List Nat} (hnd : l.Nodup)
    (hl : ∀ i ∈ l, ∃ name slot, s.callers[i]? = some ⟨name, .arrived slot⟩) :
    (∀ m, joined (s.history store l) m = if s.keyOf m = none then
      l.filter fun i ↦ (s.callers.map (·.name))[i]? = some m else []) ∧
      (∀ i ∈ l, ∃ c, (s.run store l).callers[i]? = some c ∧ c.phase.early = false) ∧
      ∀ i ∉ l, (s.run store l).callers[i]? = s.callers[i]? := by
  induction l generalizing s with
  | nil => exact ⟨fun m ↦ by simp [history, joined], fun i hi ↦ absurd hi List.not_mem_nil,
      fun i _ ↦ rfl⟩
  | cons i l ih =>
    obtain ⟨hil, hnd⟩ := List.nodup_cons.1 hnd
    obtain ⟨name, slot, hc⟩ := hl i (List.mem_cons_self ..)
    obtain ⟨p', hp, hs, hk, hj⟩ := h.step_arrived store hc
    obtain ⟨hj', hin, hout⟩ := ih (h.step store i) hnd fun j hjl ↦ by
      rw [getElem?_of_ne hs fun hji ↦ hil (hji ▸ hjl)]
      exact hl j (List.mem_cons_of_mem _ hjl)
    refine ⟨?_, ?_, ?_⟩
    · intro m
      have hname : (s.callers.map (·.name))[i]? = some name := by
        rw [List.getElem?_map, hc, Option.map_some]
      rw [history, joined_append_list, hj, hj', hk, h.names_step, List.filter_cons, hname]
      by_cases hkm : s.keyOf m = none
      · by_cases hn : name = m <;> simp [hkm, hn]
      · simp [hkm]
    · intro j hjm
      rcases List.mem_cons.1 hjm with rfl | hjl
      · exact ⟨⟨name, p'⟩, (hout j hil).trans (getElem?_of_set hc hs), hp⟩
      · exact hin j hjl
    · intro j hjm
      rw [List.mem_cons, not_or] at hjm
      exact (hout j hjm.2).trans (getElem?_of_ne hs hjm.1)

theorem Sound.run_late (h : Sound s) (store : Store) (schedule : List Nat)
    (hl : ∀ (i : Nat) (c : Caller), s.callers[i]? = some c → c.phase.early = false) (m : String) :
    joined (s.history store schedule) m = [] := by
  induction schedule generalizing s with
  | nil => rfl
  | cons i schedule ih =>
    rw [history, joined_append_list]
    cases hi : s.callers[i]? with
    | none =>
      have hstep : s.step store i = s := by simp only [Lookups.step, hi]
      rw [hstep, ih h hl, move?, hi]
      rfl
    | some c =>
      obtain ⟨name, p⟩ := c
      obtain ⟨p', hp, hs, hj⟩ := h.step_late store hi (hl i _ hi)
      rw [hj, List.nil_append]
      apply ih (h.step store i)
      intro j c hc
      rw [hs] at hc
      rcases getElem?_set_cases hc with ⟨-, rfl⟩ | ⟨-, hc⟩
      · exact hp
      · exact hl j c hc

/-- Callers that take their steps in turn join the queues in their order. -/
theorem joined_inTurn (store : Store) (cache : Cache) (names : List String) (m : String) :
    joined ((start cache names).history store (inTurn names.length)) m =
      if cache.key? m = none then (List.range names.length).filter fun i ↦ names[i]? = some m
      else [] := by
  have h := sound_start cache names
  have hrounds : inTurn names.length = List.range names.length ++ (List.range names.length ++
      (List.replicate (3 * names.length + 1) (List.range names.length)).flatten) := rfl
  have hbegun : ∀ i ∈ List.range names.length,
      ∃ name, (start cache names).callers[i]? = some ⟨name, .begun⟩ := fun i hi ↦
    ⟨_, getElem?_start.2 ⟨_, List.getElem?_eq_getElem (List.mem_range.1 hi), rfl⟩⟩
  obtain ⟨hk, hj, hin, -⟩ := h.run_begun store List.nodup_range hbegun
  obtain ⟨hj', hin', -⟩ := (h.run store _).run_arrived store List.nodup_range hin
  have hlate := ((h.run store (List.range names.length)).run store
    (List.range names.length)).run_late store
      (List.replicate (3 * names.length + 1) (List.range names.length)).flatten fun i c hc ↦ by
    have hlt := (List.getElem?_eq_some_iff.1 hc).1
    rw [(h.run store _).length_run, h.length_run, length_start] at hlt
    obtain ⟨d, hd, he⟩ := hin' i (List.mem_range.2 hlt)
    obtain rfl := Option.some.inj (hc.symm.trans hd)
    exact he
  rw [hrounds, history_append, history_append, joined_append_list, joined_append_list, hj, hj',
    hlate, List.nil_append, List.append_nil, hk, keyOf_start, h.names_run, names_start]

theorem getElem?_filter_range (q : Nat → Bool) {n p : Nat} (hp : p < n) (hq : q p = true) :
    ((List.range n).filter q)[((List.range p).filter q).length]? = some p := by
  induction n with
  | zero => exact absurd hp (Nat.not_lt_zero p)
  | succ n ih =>
    rw [List.range_succ, List.filter_append]
    rcases Nat.lt_succ_iff_lt_or_eq.1 hp with hlt | rfl
    · have h := ih hlt
      rw [List.getElem?_append_left (List.getElem?_eq_some_iff.1 h).1, h]
    · rw [List.filter_cons_of_pos hq, List.filter_nil]
      exact List.getElem?_concat_length

theorem count_take (names : List String) (name : String) {p : Nat} (hp : p ≤ names.length) :
    (names.take p).count name =
      ((List.range p).filter fun i ↦ names[i]? = some name).length := by
  induction p with
  | zero => rfl
  | succ p ih =>
    have hlt : p < names.length := hp
    rw [List.take_add_one, List.count_append, ih (Nat.le_of_succ_le hp), List.range_succ,
      List.filter_append, List.length_append, List.getElem?_eq_getElem hlt, Option.toList_some]
    by_cases hn : names[p] = name <;> simp [hn, hlt]

theorem getElem?_joined_inTurn (store : Store) {cache : Cache} {names : List String} {p : Nat}
    (hk : cache.key? name = none) (hp : names[p]? = some name) :
    (joined ((start cache names).history store (inTurn names.length)) name)[
      (names.take p).count name]? = some p := by
  obtain ⟨hlt, -⟩ := List.getElem?_eq_some_iff.1 hp
  rw [joined_inTurn, if_pos hk, count_take names name (Nat.le_of_lt hlt)]
  exact getElem?_filter_range _ hlt (decide_eq_true hp)

end ColumnFunctions.Secret.Lookups
