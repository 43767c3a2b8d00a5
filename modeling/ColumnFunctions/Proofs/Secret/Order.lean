import ColumnFunctions.Proofs.Secret.Requests

namespace ColumnFunctions.Secret

def Phase.early : Phase → Bool
  | .begun | .arrived _ => true
  | .queued _ | .asking _ _ | .answered _ _ | .failed _ _ | .done _ => false

namespace Lookups

def idle (s : Lookups) (name : String) : List Nat :=
  (s.queueOf name).filter fun i ↦ (s.callers[i]?.map (·.phase.inFlight)) = some false

/-- In which order callers had their turns. -/
structure Ordered (past : List Move) (s : Lookups) : Prop where
  named : ∀ name, ∀ i ∈ joined past name, ∃ c, s.callers[i]? = some c ∧ c.name = name
  out : ∀ (i : Nat) (c : Caller) name, s.callers[i]? = some c → c.phase.early = true →
    i ∉ joined past name
  once : ∀ name, (joined past name).Nodup
  earlier : ∀ name, fetchers past name <+: joined past name
  rest : ∀ name, s.keyOf name = none → joined past name = fetchers past name ++ s.idle name

variable {store : Store} {past : List Move} {s s' : Lookups} {i : Nat}
  {name : String} {p p' : Phase}

theorem idle_congr {m : String} (hq : s'.queueOf m = s.queueOf m)
    (hp : ∀ j ∈ s.queueOf m, s'.callers[j]?.map (·.phase.inFlight) =
      s.callers[j]?.map (·.phase.inFlight)) : s'.idle m = s.idle m := by
  rw [idle, idle, hq]
  exact List.filter_congr fun j hj ↦ by rw [hp j hj]

theorem inFlight_set (hc : s.callers[i]? = some ⟨name, p⟩)
    (hs : s'.callers = s.callers.set i ⟨name, p'⟩) (hp : p'.inFlight = p.inFlight) (j : Nat) :
    s'.callers[j]?.map (·.phase.inFlight) = s.callers[j]?.map (·.phase.inFlight) := by
  by_cases hj : j = i
  · subst hj
    rw [getElem?_of_set hc hs, hc]
    exact congrArg some hp
  · rw [getElem?_of_ne hs hj]

theorem Sound.idle_of_ne (h : Sound s) (hc : s.callers[i]? = some ⟨name, p⟩)
    (ht : Turn store s s' i name p p') (hs : s'.callers = s.callers.set i ⟨name, p'⟩) {m : String}
    (hm : m ≠ name) : s'.idle m = s.idle m := by
  apply idle_congr (ht.frame hm).2
  intro j hj
  have hji : j ≠ i := by
    rintro rfl
    exact hm ((waiting_self hc m).1 ((h.queued m j).1 hj).2).1
  rw [getElem?_of_ne hs hji]

/-- Those who wait do so until somebody joins them or the first of them makes a request. -/
theorem Sound.idle_eq (h : Sound s) (hc : s.callers[i]? = some ⟨name, p⟩)
    (ht : Turn store s s' i name p p') (hs : s'.callers = s.callers.set i ⟨name, p'⟩)
    (hn : (Move.mk i name p p').fetch? = none) (hj : (Move.mk i name p p').joins name = false)
    {m : String} (hk : s'.keyOf m = none) : s'.idle m = s.idle m := by
  by_cases hm : m = name
  · subst hm
    cases ht with
    | join => simp [Move.joins] at hj
    | ask => cases hn
    | wake slot key known same =>
      rw [same.keyOf, known] at hk
      cases hk
    | settle slot reply key hv hk' hh hkey hq hr =>
      rw [hkey, Function.update_self] at hk
      cases hk
    | fail slot reply e hv hk' hh hkey hq hr =>
      obtain ⟨l, hl⟩ := List.head?_eq_some_iff.1 hh
      have hnd := h.nodup m
      rw [hl, List.nodup_cons] at hnd
      rw [idle, idle, hq, Function.update_self, hl, List.tail_cons,
        List.filter_cons_of_neg (by simp [hc, Phase.inFlight])]
      apply List.filter_congr
      intro j hjl
      rw [getElem?_of_ne hs fun hji ↦ hnd.1 (hji ▸ hjl)]
    | find | take | wait | hear | leave | rest =>
      next same =>
        exact idle_congr (by rw [same.queueOf]) fun j _ ↦ inFlight_set hc hs rfl j
  · exact h.idle_of_ne hc ht hs hm

theorem Turn.joins_eq (ht : Turn store s s' i name p p') :
    (∀ m, (Move.mk i name p p').joins m = false) ∨
      (∀ m, (Move.mk i name p p').joins m = decide (name = m)) ∧ p'.waits = true ∧
        (∃ slot, p = .arrived slot) ∧ (Move.mk i name p p').fetch? = none ∧
        p'.inFlight = false ∧ i ∉ s.queueOf name ∧ s'.keyOf = s.keyOf ∧
        s'.queueOf name = s.queueOf name ++ [i] := by
  cases ht with
  | join slot hk out hkey hq hr =>
    exact .inr ⟨fun m ↦ rfl, rfl, ⟨slot, rfl⟩, rfl, rfl, out, hkey, by
      rw [hq, Function.update_self]⟩
  | find | take | wake | wait | ask | hear | settle | fail | leave | rest => exact .inl fun m ↦ rfl

theorem joined_append (past : List Move) (m : Move) (name : String) :
    joined (past ++ [m]) name = joined past name ++ if m.joins name then [m.caller] else [] := by
  rw [joined, joined, List.filter_append, List.map_append]
  by_cases h : m.joins name = true <;> simp [h]

theorem fetchers_append (past : List Move) (m : Move) (name : String) :
    fetchers (past ++ [m]) name =
      fetchers past name ++ (m.fetch?.toList.filter (·.name = name)).map (·.caller) := by
  rw [fetchers, fetches_append, List.filter_append, List.map_append, fetchers]

theorem fetchers_of_none (past : List Move) {m : Move} (hm : m.fetch? = none) (name : String) :
    fetchers (past ++ [m]) name = fetchers past name := by
  rw [fetchers_append, hm]
  exact List.append_nil _

theorem Ordered.named_step (h : Ordered past s)
    (hc : s.callers[i]? = some ⟨name, p⟩) (ht : Turn store s s' i name p p')
    (hs : s'.callers = s.callers.set i ⟨name, p'⟩) (m : String) (j : Nat)
    (hj : j ∈ joined (past ++ [⟨i, name, p, p'⟩]) m) :
    ∃ c, s'.callers[j]? = some c ∧ c.name = m := by
  have hself := getElem?_of_set hc hs
  rw [joined_append, List.mem_append] at hj
  rcases hj with hj | hj
  · obtain ⟨c, hcj, hn⟩ := h.named m j hj
    by_cases hji : j = i
    · subst hji
      obtain rfl := Option.some.inj (hc.symm.trans hcj)
      exact ⟨_, hself, hn⟩
    · exact ⟨c, by rw [getElem?_of_ne hs hji, hcj], hn⟩
  · split at hj
    · next hjoin =>
      obtain rfl := List.mem_singleton.1 hj
      rcases ht.joins_eq with hnone | ⟨hsome, -⟩
      · rw [hnone m] at hjoin
        cases hjoin
      · rw [hsome m] at hjoin
        exact ⟨_, hself, of_decide_eq_true hjoin⟩
    · exact absurd hj List.not_mem_nil

theorem Ordered.out_step (h : Ordered past s)
    (hc : s.callers[i]? = some ⟨name, p⟩) (ht : Turn store s s' i name p p')
    (hs : s'.callers = s.callers.set i ⟨name, p'⟩) (j : Nat) (c : Caller) (m : String)
    (hj : s'.callers[j]? = some c) (he : c.phase.early = true) :
    j ∉ joined (past ++ [⟨i, name, p, p'⟩]) m := by
  rw [joined_append, List.mem_append, not_or]
  rw [hs] at hj
  rcases getElem?_set_cases hj with ⟨rfl, rfl⟩ | ⟨hji, hj⟩
  · cases ht with
    | find slot found same => exact ⟨h.out j _ m hc rfl, by simp [Move.joins]⟩
    | take | join | wake | wait | ask | hear | settle | fail | leave | rest => cases he
  · refine ⟨h.out j c m hj he, ?_⟩
    split
    · exact fun hm ↦ hji (List.mem_singleton.1 hm)
    · exact List.not_mem_nil

theorem Ordered.step_of_none (h : Ordered past s) (hsound : Sound s)
    (hc : s.callers[i]? = some ⟨name, p⟩) (ht : Turn store s s' i name p p')
    (hs : s'.callers = s.callers.set i ⟨name, p'⟩)
    (hn : (Move.mk i name p p').fetch? = none) (hj : ∀ m, (Move.mk i name p p').joins m = false) :
    Ordered (past ++ [⟨i, name, p, p'⟩]) s' := by
  have hjoined : ∀ m, joined (past ++ [⟨i, name, p, p'⟩]) m = joined past m := by
    intro m
    rw [joined_append, hj m]
    exact List.append_nil _
  have hfetch := fetchers_of_none past hn
  refine ⟨h.named_step hc ht hs, h.out_step hc ht hs, ?_, ?_, ?_⟩
  · intro m
    rw [hjoined]
    exact h.once m
  · intro m
    rw [hjoined, hfetch]
    exact h.earlier m
  · intro m hk
    have hold : s.keyOf m = none := by
      cases hm : s.keyOf m with
      | none => rfl
      | some key =>
        rw [ht.keyOf_of_some hm] at hk
        cases hk
    rw [hjoined, hfetch, hsound.idle_eq hc ht hs hn (hj name) hk, h.rest m hold]

theorem Ordered.step_of_join (h : Ordered past s) (hsound : Sound s)
    (hc : s.callers[i]? = some ⟨name, p⟩) (ht : Turn store s s' i name p p')
    (hs : s'.callers = s.callers.set i ⟨name, p'⟩)
    (hn : (Move.mk i name p p').fetch? = none)
    (hj : ∀ m, (Move.mk i name p p').joins m = decide (name = m)) (hp : p.early = true)
    (hf : p'.inFlight = false) (hout : i ∉ s.queueOf name) (hkey : s'.keyOf = s.keyOf)
    (hq : s'.queueOf name = s.queueOf name ++ [i]) :
    Ordered (past ++ [⟨i, name, p, p'⟩]) s' := by
  have hjoined : ∀ m, joined (past ++ [⟨i, name, p, p'⟩]) m =
      joined past m ++ if name = m then [i] else [] := by
    intro m
    rw [joined_append, hj m]
    simp only [decide_eq_true_eq]
  have hfetch := fetchers_of_none past hn
  refine ⟨h.named_step hc ht hs, h.out_step hc ht hs, ?_, ?_, ?_⟩
  · intro m
    rw [hjoined, List.nodup_append]
    refine ⟨h.once m, by split <;> simp, ?_⟩
    intro a ha b hb hab
    split at hb
    · rw [hab, List.mem_singleton.1 hb] at ha
      exact h.out i _ m hc hp ha
    · exact List.not_mem_nil hb
  · intro m
    rw [hjoined, hfetch]
    exact (h.earlier m).trans (List.prefix_append _ _)
  · intro m hk
    rw [hkey] at hk
    rw [hjoined, hfetch, h.rest m hk, List.append_assoc]
    by_cases hm : m = name
    · subst hm
      have hself := getElem?_of_set hc hs
      rw [if_pos rfl, idle, idle, hq, List.filter_append,
        List.filter_cons_of_pos (by simp [hself, hf]), List.filter_nil]
      congr 2
      apply List.filter_congr
      intro j hjq
      rw [getElem?_of_ne hs fun hji ↦ hout (hji ▸ hjq)]
    · rw [if_neg (Ne.symm hm), List.append_nil, hsound.idle_of_ne hc ht hs hm]

theorem Ordered.step_of_ask (h : Ordered past s) (hsound : Sound s) {slot : Nat}
    (hc : s.callers[i]? = some ⟨name, .queued slot⟩) {number : Nat}
    (ht : Turn store s s' i name (.queued slot) (.asking slot number))
    (hs : s'.callers = s.callers.set i ⟨name, .asking slot number⟩)
    (hk : s.keyOf name = none) (hh : (s.queueOf name).head? = some i) :
    Ordered (past ++ [⟨i, name, .queued slot, .asking slot number⟩]) s' := by
  have hjoined : ∀ m, joined (past ++ [⟨i, name, .queued slot, .asking slot number⟩]) m =
      joined past m := by
    intro m
    rw [joined_append]
    exact List.append_nil _
  have hfetch : ∀ m, fetchers (past ++ [⟨i, name, .queued slot, .asking slot number⟩]) m =
      fetchers past m ++ if name = m then [i] else [] := by
    intro m
    rw [fetchers_append]
    by_cases hm : name = m <;> simp [Move.fetch?, hm]
  -- The caller leaves those who wait from the front.
  have hidle : s.idle name = i :: s'.idle name := by
    obtain ⟨l, hl⟩ := List.head?_eq_some_iff.1 hh
    have hnd := hsound.nodup name
    rw [hl, List.nodup_cons] at hnd
    have hself := getElem?_of_set hc hs
    have hq : s'.queueOf name = s.queueOf name := by
      cases ht with
      | ask slot hk hh hkey hq hr => rw [hq]
    rw [idle, idle, hq, hl, List.filter_cons_of_pos (by simp [hc, Phase.inFlight]),
      List.filter_cons_of_neg (by simp [hself, Phase.inFlight])]
    congr 1
    apply List.filter_congr
    intro j hjl
    rw [getElem?_of_ne hs fun hji ↦ hnd.1 (hji ▸ hjl)]
  have hrest : ∀ m, s'.keyOf m = none → joined past m =
      (fetchers past m ++ if name = m then [i] else []) ++ s'.idle m := by
    intro m hkm
    by_cases hm : m = name
    · rw [hm, h.rest name hk, hidle, if_pos rfl, List.append_assoc]
      rfl
    · rw [(ht.frame hm).1] at hkm
      rw [h.rest m hkm, if_neg (Ne.symm hm), List.append_nil, hsound.idle_of_ne hc ht hs hm]
  refine ⟨h.named_step hc ht hs, h.out_step hc ht hs, ?_, ?_, ?_⟩
  · intro m
    rw [hjoined]
    exact h.once m
  · intro m
    rw [hjoined, hfetch]
    by_cases hm : m = name
    · rw [hrest m (by cases ht with | ask slot hk hh hkey hq hr => rw [hkey, hm, hk])]
      exact List.prefix_append _ _
    · rw [if_neg (Ne.symm hm), List.append_nil]
      exact h.earlier m
  · intro m hkm
    rw [hjoined, hfetch, hrest m hkm]

theorem Ordered.step (h : Ordered past s) (hsound : Sound s) (store : Store)
    (i : Nat) : Ordered (past ++ (s.move? store i).toList) (s.step store i) := by
  cases hi : s.callers[i]? with
  | none => simpa [move?, Lookups.step, hi] using h
  | some c =>
    obtain ⟨name, p⟩ := c
    obtain ⟨p', hm, ht, hs⟩ := hsound.move?_eq store hi
    rw [hm, Option.toList_some]
    rcases ht.joins_eq with hj | ⟨hj, -, ⟨slot, rfl⟩, hn, hf, hout, hkey, hq⟩
    · rcases ht.fetch?_eq with ⟨hn, -⟩ | ⟨-, -, hk, hh, slot, rfl, rfl⟩
      · exact h.step_of_none hsound hi ht hs hn hj
      · exact h.step_of_ask hsound hi ht hs hk hh
    · exact h.step_of_join hsound hi ht hs hn hj rfl hf hout hkey hq

theorem Ordered.run (h : Ordered past s) (hsound : Sound s) (store : Store)
    (schedule : List Nat) : Ordered (past ++ s.history store schedule) (s.run store schedule) := by
  induction schedule generalizing past s with
  | nil => simpa [history, Lookups.run] using h
  | cons i schedule ih =>
    have := ih (h.step hsound store i) (hsound.step store i)
    rwa [List.append_assoc] at this

theorem ordered_start (cache : Cache) (names : List String) :
    Ordered [] (start cache names) where
  named name i hi := absurd hi List.not_mem_nil
  out i c name hc he := List.not_mem_nil
  once name := List.nodup_nil
  earlier name := List.prefix_rfl
  rest name hk := by
    rw [idle, queueOf_start]
    rfl

end Lookups

end ColumnFunctions.Secret
