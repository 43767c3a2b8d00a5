import ColumnFunctions.Proofs.Secret.Sound
import Mathlib.Data.List.Perm.Subperm

namespace ColumnFunctions.Secret

def Phase.turns : Phase → Nat
  | .queued _ => 3
  | .asking _ _ => 2
  | .answered _ _ => 1
  | .begun | .arrived _ | .failed _ _ | .done _ => 0

theorem Phase.turns_le (p : Phase) : p.turns ≤ 3 := by
  cases p <;> simp [turns]

namespace Lookups

def headTurns (s : Lookups) (name : String) : Nat :=
  (((s.queueOf name).head?.bind fun i ↦ s.callers[i]?).map (·.phase.turns)).getD 0

/-- A bound on the rounds that a caller needs: in the queue, what the first of it still needs, three
for each other one up to the caller, and one to end. -/
def roundsOf (s : Lookups) (i : Nat) (name : String) : Phase → Nat
  | .begun => 3 * s.callers.length + 3
  | .arrived _ => 3 * s.callers.length + 2
  | .queued _ | .asking _ _ | .answered _ _ =>
    match s.keyOf name with
    | some _ => 1
    | none => 3 * (s.queueOf name).idxOf i + s.headTurns name + 1
  | .failed _ _ => 1
  | .done _ => 0

def rounds (s : Lookups) (i : Nat) : Nat :=
  (s.callers[i]?.map fun c ↦ s.roundsOf i c.name c.phase).getD 0

def blocker (s : Lookups) (i : Nat) : Nat :=
  match s.callers[i]? with
  | none => i
  | some c =>
    if c.phase.waits = true ∧ s.keyOf c.name = none then (s.queueOf c.name).head?.getD i else i

variable {store : Store} {s s' : Lookups} {i k : Nat} {name m : String} {p p' q q' : Phase}

theorem headTurns_le (s : Lookups) (name : String) : s.headTurns name ≤ 3 := by
  rw [headTurns]
  cases (s.queueOf name).head?.bind fun i ↦ s.callers[i]? with
  | none => exact Nat.zero_le 3
  | some c => exact c.phase.turns_le

theorem headTurns_eq {c : Caller} (hh : (s.queueOf name).head? = some i)
    (hc : s.callers[i]? = some c) : s.headTurns name = c.phase.turns := by
  rw [headTurns, hh, Option.bind_some, hc]
  rfl

theorem roundsOf_of_none (hp : p.waits = true) (hk : s.keyOf name = none) :
    s.roundsOf i name p = 3 * (s.queueOf name).idxOf i + s.headTurns name + 1 := by
  cases p with
  | queued | asking | answered => simp only [roundsOf, hk]
  | begun | arrived | failed | done => cases hp

theorem roundsOf_of_some {key : Key} (hp : p.waits = true) (hk : s.keyOf name = some key) :
    s.roundsOf i name p = 1 := by
  cases p with
  | queued | asking | answered => simp only [roundsOf, hk]
  | begun | arrived | failed | done => cases hp

theorem rounds_eq (hc : s.callers[i]? = some ⟨name, p⟩) : s.rounds i = s.roundsOf i name p := by
  rw [rounds, hc]
  rfl

theorem blocker_of_none (hc : s.callers[i]? = some ⟨name, p⟩) (hp : p.waits = true)
    (hk : s.keyOf name = none) (hh : (s.queueOf name).head? = some k) : s.blocker i = k := by
  simp only [blocker, hc]
  rw [if_pos ⟨hp, hk⟩, hh, Option.getD_some]

theorem blocker_self (hc : s.callers[i]? = some ⟨name, p⟩)
    (h : p.waits = false ∨ s.keyOf name ≠ none) : s.blocker i = i := by
  simp only [blocker, hc]
  apply if_neg
  intro hn
  rcases h with hp | hk
  · rw [hp] at hn
    exact Bool.false_ne_true hn.1
  · exact hk hn.2

theorem Sound.exists_head (h : Sound s) (hc : s.callers[i]? = some ⟨name, p⟩)
    (hp : p.waits = true) (hk : s.keyOf name = none) :
    i ∈ s.queueOf name ∧ ∃ b, (s.queueOf name).head? = some b := by
  have hi : i ∈ s.queueOf name := (h.queued name i).2 ⟨hk, _, hc, rfl, hp⟩
  refine ⟨hi, ?_⟩
  cases hq : s.queueOf name with
  | nil =>
    rw [hq] at hi
    exact absurd hi List.not_mem_nil
  | cons b l => exact ⟨b, rfl⟩

theorem Sound.blocker_lt (h : Sound s) (hc : s.callers[i]? = some ⟨name, p⟩) :
    s.blocker i < s.callers.length := by
  have hi := (List.getElem?_eq_some_iff.1 hc).1
  by_cases hw : p.waits = true ∧ s.keyOf name = none
  · obtain ⟨-, b, hb⟩ := h.exists_head hc hw.1 hw.2
    obtain ⟨-, d, hd, -⟩ := (h.queued name b).1 (List.mem_of_head? hb)
    rw [blocker_of_none hc hw.1 hw.2 hb]
    exact (List.getElem?_eq_some_iff.1 hd).1
  · simp only [blocker, hc]
    rwa [if_neg hw]

theorem Sound.length_queueOf_le (h : Sound s) (name : String) :
    (s.queueOf name).length ≤ s.callers.length := by
  have hsub : s.queueOf name ⊆ List.range s.callers.length := by
    intro j hj
    obtain ⟨-, c, hc, -⟩ := (h.queued name j).1 hj
    exact List.mem_range.2 (List.getElem?_eq_some_iff.1 hc).1
  have hle := (List.Nodup.subperm (h.nodup name) hsub).length_le
  rwa [List.length_range] at hle

theorem Sound.rounds_self (h : Sound s) (hsound : Sound s') (hc : s.callers[i]? = some ⟨name, p⟩)
    (ht : Turn store s s' i name p p') (hs : s'.callers = s.callers.set i ⟨name, p'⟩)
    (hpos : 0 < s.rounds i) :
    s'.rounds i < s.rounds i ∨
      s'.rounds i = s.rounds i ∧ s'.blocker i = s.blocker i ∧ i ≠ s.blocker i := by
  have hc' := getElem?_of_set hc hs
  have hlen : s'.callers.length = s.callers.length := by rw [hs, List.length_set]
  rw [rounds_eq hc] at hpos ⊢
  rw [rounds_eq hc']
  cases ht with
  | find slot found same => left; simp only [roundsOf, hlen]; omega
  | take slot key known same => left; simp only [roundsOf]; omega
  | join slot hk out hkey hq hr =>
    left
    have hmem : i ∈ s'.queueOf name := by rw [hq, Function.update_self]; simp
    have hidx := List.idxOf_lt_length_of_mem hmem
    have hle := hsound.length_queueOf_le name
    have hturns := headTurns_le s' name
    rw [roundsOf_of_none rfl (by rw [hkey, hk])]
    simp only [roundsOf]
    omega
  | wake slot key known same => left; rw [roundsOf_of_some rfl known, roundsOf]; omega
  | wait slot hk behind same =>
    right
    have hcallers : s'.callers = s.callers := by rw [hs, ← set_callers_self hc]
    obtain ⟨-, b, hb⟩ := h.exists_head hc rfl hk
    have hk' : s'.keyOf name = none := by rw [same.keyOf, hk]
    have hb' : (s'.queueOf name).head? = some b := by rw [same.queueOf, hb]
    have hturns : s'.headTurns name = s.headTurns name := by
      rw [headTurns, headTurns, same.queueOf, hcallers]
    refine ⟨?_, ?_, ?_⟩
    · rw [roundsOf_of_none rfl hk, roundsOf_of_none rfl hk', hturns, same.queueOf]
    · rw [blocker_of_none hc rfl hk hb, blocker_of_none hc' rfl hk' hb']
    · rw [blocker_of_none hc rfl hk hb]
      rintro rfl
      exact behind hb
  | ask slot hk hh hkey hq hr =>
    left
    rw [roundsOf_of_none rfl hk, roundsOf_of_none rfl (by rw [hkey, hk]), headTurns_eq hh hc,
      headTurns_eq (by rw [hq, hh]) hc', hq]
    simp only [Phase.turns]
    omega
  | hear slot number hk hh same =>
    left
    rw [roundsOf_of_none rfl hk, roundsOf_of_none rfl (by rw [same.keyOf, hk]), headTurns_eq hh hc,
      headTurns_eq (by rw [same.queueOf, hh]) hc', same.queueOf]
    simp only [Phase.turns]
    omega
  | settle slot reply key hv hk hh hkey hq hr =>
    left
    rw [roundsOf_of_none rfl hk, roundsOf]
    omega
  | fail slot reply e hv hk hh hkey hq hr =>
    left
    rw [roundsOf_of_none rfl hk, headTurns_eq hh hc, roundsOf]
    simp only [Phase.turns]
    omega
  | leave slot e same => left; simp only [roundsOf]; omega
  | rest result same => simp only [roundsOf] at hpos; omega

theorem Sound.rounds_head (h : Sound s) (hi : s.callers[i]? = some ⟨name, q⟩)
    (hi' : s'.callers[i]? = some ⟨name, q⟩) (hq : q.waits = true) (hki : k ≠ i)
    (hc : s.callers[k]? = some ⟨name, p⟩) (ht : Turn store s s' k name p p')
    (hs : s'.callers = s.callers.set k ⟨name, p'⟩) (hk : s.keyOf name = none)
    (hh : (s.queueOf name).head? = some k) : s'.rounds i < s.rounds i := by
  have hwait : p.waits = true :=
    ((waiting_self hc name).1 ((h.queued name k).1 (List.mem_of_head? hh)).2).2
  have hc' := getElem?_of_set hc hs
  rw [rounds_eq hi, rounds_eq hi', roundsOf_of_none hq hk, headTurns_eq hh hc]
  cases ht with
  | find | take | join | leave | rest => cases hwait
  | wake slot key known => rw [hk] at known; cases known
  | wait slot hk behind => exact absurd hh behind
  | ask slot hk' hh' hkey hqueue hr =>
    rw [roundsOf_of_none hq (by rw [hkey, hk]), hqueue, headTurns_eq (by rw [hqueue, hh]) hc']
    simp only [Phase.turns]
    omega
  | hear slot number hk' hh' same =>
    rw [roundsOf_of_none hq (by rw [same.keyOf, hk]), same.queueOf,
      headTurns_eq (by rw [same.queueOf, hh]) hc']
    simp only [Phase.turns]
    omega
  | settle slot reply key hv hk' hh' hkey hqueue hr =>
    rw [roundsOf_of_some hq (by rw [hkey, Function.update_self])]
    simp only [Phase.turns]
    omega
  | fail slot reply e hv hk' hh' hkey hqueue hr =>
    obtain ⟨l, hl⟩ := List.head?_eq_some_iff.1 hh
    have hturns := headTurns_le s' name
    rw [roundsOf_of_none hq (by rw [hkey, hk]), hqueue, Function.update_self, hl, List.tail_cons,
      List.idxOf_cons, beq_false_of_ne hki]
    simp only [Phase.turns, cond_false]
    omega

theorem Turn.idxOf (ht : Turn store s s' k name p p') (hi : i ∈ s.queueOf m)
    (hh : (s.queueOf m).head? ≠ some k) : (s'.queueOf m).idxOf i = (s.queueOf m).idxOf i := by
  by_cases hm : m = name
  · subst hm
    cases ht with
    | join slot hk out hkey hq hr =>
      rw [hq, Function.update_self, List.idxOf_append, if_pos hi]
    | ask slot hk hh' hkey hq hr => rw [hq]
    | settle slot reply key hv hk hh' | fail slot reply e hv hk hh' => exact absurd hh' hh
    | find | take | wake | wait | hear | leave | rest => next same => rw [same.queueOf]
  · rw [(ht.frame hm).2]

/-- The step of another caller keeps nobody longer, and brings those forward who wait for it. -/
theorem Sound.rounds_other (h : Sound s) (hi : s.callers[i]? = some ⟨m, q⟩) (hki : k ≠ i)
    (hc : s.callers[k]? = some ⟨name, p⟩) (ht : Turn store s s' k name p p')
    (hs : s'.callers = s.callers.set k ⟨name, p'⟩) :
    s'.rounds i < s.rounds i ∨
      s'.rounds i = s.rounds i ∧ s'.blocker i = s.blocker i ∧ k ≠ s.blocker i := by
  have hi' : s'.callers[i]? = some ⟨m, q⟩ := (getElem?_of_ne hs (Ne.symm hki)).trans hi
  have hlen : s'.callers.length = s.callers.length := by rw [hs, List.length_set]
  by_cases hq : q.waits = true
  · cases hk : s.keyOf m with
    | some key =>
      have hk' := ht.keyOf_of_some hk
      refine .inr ⟨?_, ?_, ?_⟩
      · rw [rounds_eq hi, rounds_eq hi', roundsOf_of_some hq hk, roundsOf_of_some hq hk']
      · rw [blocker_self hi (.inr (by simp [hk])), blocker_self hi' (.inr (by simp [hk']))]
      · rwa [blocker_self hi (.inr (by simp [hk]))]
    | none =>
      obtain ⟨hmem, b, hb⟩ := h.exists_head hi hq hk
      by_cases hkb : k = b
      · subst hkb
        obtain rfl : m = name :=
          ((waiting_self hc m).1 ((h.queued m k).1 (List.mem_of_head? hb)).2).1
        exact .inl (h.rounds_head hi hi' hq hki hc ht hs hk hb)
      · obtain ⟨hk', hb'⟩ := ht.head? (Ne.symm hkb) hk hb
        have hidx := ht.idxOf hmem fun hh ↦ hkb (Option.some.inj (hh.symm.trans hb))
        have hturns : s'.headTurns m = s.headTurns m := by
          rw [headTurns, headTurns, hb, hb', Option.bind_some, Option.bind_some, hs,
            List.getElem?_set_ne hkb]
        refine .inr ⟨?_, ?_, ?_⟩
        · rw [rounds_eq hi, rounds_eq hi', roundsOf_of_none hq hk, roundsOf_of_none hq hk', hidx,
            hturns]
        · rw [blocker_of_none hi hq hk hb, blocker_of_none hi' hq hk' hb']
        · rwa [blocker_of_none hi hq hk hb]
  · have hq' : q.waits = false := Bool.eq_false_iff.2 hq
    refine .inr ⟨?_, ?_, ?_⟩
    · rw [rounds_eq hi, rounds_eq hi']
      cases q with
      | begun | arrived => simp only [roundsOf, hlen]
      | failed | done => rfl
      | queued | asking | answered => exact absurd rfl hq
    · rw [blocker_self hi (.inl hq'), blocker_self hi' (.inl hq')]
    · rwa [blocker_self hi (.inl hq')]

theorem Sound.rounds_step (h : Sound s) (store : Store) (hpos : 0 < s.rounds i) (k : Nat) :
    (s.step store k).rounds i < s.rounds i ∨
      (s.step store k).rounds i = s.rounds i ∧ (s.step store k).blocker i = s.blocker i ∧
        k ≠ s.blocker i := by
  cases hi : s.callers[i]? with
  | none => simp [rounds, hi] at hpos
  | some c =>
    obtain ⟨m, q⟩ := c
    cases hk : s.callers[k]? with
    | none =>
      have hstep : s.step store k = s := by simp only [Lookups.step, hk]
      rw [hstep]
      refine .inr ⟨rfl, rfl, ?_⟩
      rintro rfl
      exact absurd (h.blocker_lt hi) (Nat.not_lt.2 (List.getElem?_eq_none_iff.1 hk))
    | some d =>
      obtain ⟨name, p⟩ := d
      obtain ⟨p', ht, hs⟩ := h.turn store hk
      by_cases hki : k = i
      · subst hki
        obtain ⟨rfl, rfl⟩ : name = m ∧ p = q := by simpa [hk] using hi
        exact h.rounds_self (h.step store k) hk ht hs hpos
      · exact h.rounds_other hi hki hk ht hs

theorem done_of_rounds {c : Caller} (hc : s.callers[i]? = some c) (h : s.rounds i = 0) :
    ∃ r, c.phase = .done r := by
  obtain ⟨name, p⟩ := c
  rw [rounds_eq hc] at h
  cases p with
  | done r => exact ⟨r, rfl⟩
  | begun | arrived | failed => simp [roundsOf] at h
  | queued | asking | answered =>
    cases hk : s.keyOf name with
    | some key => simp [roundsOf, hk] at h
    | none => simp [roundsOf, hk] at h

theorem Sound.rounds_step_le (h : Sound s) (store : Store) (i k : Nat) :
    (s.step store k).rounds i ≤ s.rounds i := by
  by_cases hpos : 0 < s.rounds i
  · rcases h.rounds_step store hpos k with hlt | ⟨heq, -⟩
    · exact Nat.le_of_lt hlt
    · exact Nat.le_of_eq heq
  cases hi : s.callers[i]? with
  | none =>
    rw [List.getElem?_eq_none_iff, ← h.length_step store k, ← List.getElem?_eq_none_iff] at hi
    simp [rounds, hi]
  | some c =>
    obtain ⟨m, q⟩ := c
    obtain ⟨r, rfl⟩ := done_of_rounds hi (Nat.eq_zero_of_not_pos hpos)
    cases hk : s.callers[k]? with
    | none => simp only [Lookups.step, hk, Nat.le_refl]
    | some d =>
      obtain ⟨name, p⟩ := d
      obtain ⟨p', ht, hs⟩ := h.turn store hk
      by_cases hki : k = i
      · subst hki
        obtain ⟨rfl, rfl⟩ : name = m ∧ p = .done r := by simpa [hk] using hi
        cases ht with
        | rest =>
          rw [← set_callers_self hk] at hs
          simp [rounds, hs, hk, roundsOf]
      · rcases h.rounds_other hi hki hk ht hs with hlt | ⟨heq, -⟩
        · exact Nat.le_of_lt hlt
        · exact Nat.le_of_eq heq

theorem Sound.rounds_run_le (h : Sound s) (store : Store) (schedule : List Nat) (i : Nat) :
    (s.run store schedule).rounds i ≤ s.rounds i := by
  induction schedule generalizing s with
  | nil => exact Nat.le_refl _
  | cons k schedule ih =>
    exact Nat.le_trans (ih (h.step store k)) (h.rounds_step_le store i k)

theorem Sound.rounds_run (h : Sound s) (store : Store) (hpos : 0 < s.rounds i)
    (schedule : List Nat) : (s.run store schedule).rounds i < s.rounds i ∨
      (s.run store schedule).rounds i = s.rounds i ∧ s.blocker i ∉ schedule := by
  induction schedule generalizing s with
  | nil => exact .inr ⟨rfl, List.not_mem_nil⟩
  | cons k schedule ih =>
    rcases h.rounds_step store hpos k with hlt | ⟨heq, hb, hk⟩
    · exact .inl (Nat.lt_of_le_of_lt ((h.step store k).rounds_run_le store schedule i) hlt)
    · rcases ih (h.step store k) (heq ▸ hpos) with hlt | ⟨heq', hout⟩
      · exact .inl (Nat.lt_of_lt_of_eq hlt heq)
      · rw [hb] at hout
        exact .inr ⟨heq'.trans heq, fun hm ↦ (List.mem_cons.1 hm).elim (Ne.symm hk) hout⟩

/-- Rounds in which everyone takes a step, in any order and however often, bring all forward who are
not done. -/
theorem Sound.rounds_flatten_le (h : Sound s) (store : Store) {schedules : List (List Nat)}
    (hall : ∀ schedule ∈ schedules, ∀ j < s.callers.length, j ∈ schedule) (i : Nat) :
    (s.run store schedules.flatten).rounds i ≤ s.rounds i - schedules.length := by
  induction schedules generalizing s with
  | nil => exact Nat.le_refl _
  | cons schedule schedules ih =>
    have hrun := h.run store schedule
    have hlen := h.length_run store schedule
    have hle := ih hrun fun t ht j hj ↦ hall t (List.mem_cons_of_mem _ ht) j (hlen ▸ hj)
    have hround : (s.run store schedule).rounds i ≤ s.rounds i - 1 := by
      by_cases hpos : 0 < s.rounds i
      · rcases h.rounds_run store hpos schedule with hlt | ⟨-, hout⟩
        · omega
        · -- The caller that is waited for takes its step in the round.
          cases hi : s.callers[i]? with
          | none => simp [rounds, hi] at hpos
          | some c => exact absurd (hall schedule (List.mem_cons_self ..) _ (h.blocker_lt hi)) hout
      · have := h.rounds_run_le store schedule i
        omega
    rw [List.flatten_cons, run_append, List.length_cons]
    omega

theorem rounds_start (cache : Cache) (names : List String) (i : Nat) :
    (start cache names).rounds i ≤ 3 * names.length + 3 := by
  cases hi : (start cache names).callers[i]? with
  | none => simp [rounds, hi]
  | some c =>
    obtain ⟨name, -, rfl⟩ := getElem?_start.1 hi
    exact Nat.le_of_eq (by rw [rounds_eq hi, roundsOf, length_start])

/-- All look-ups end within three rounds for each and three more. -/
theorem done_of_schedules (store : Store) (cache : Cache) (names : List String)
    {schedules : List (List Nat)} (hlen : 3 * names.length + 3 ≤ schedules.length)
    (hall : ∀ schedule ∈ schedules, ∀ i < names.length, i ∈ schedule) {i : Nat} {c : Caller}
    (hc : ((start cache names).run store schedules.flatten).callers[i]? = some c) :
    ∃ r, c.phase = .done r := by
  have hn := length_start cache names
  have hle := (sound_start cache names).rounds_flatten_le store (hn ▸ hall) i
  have hstart := rounds_start cache names i
  exact done_of_rounds hc (by omega)

theorem done_of_inTurn (store : Store) (cache : Cache) (names : List String) {i : Nat} {c : Caller}
    (hc : ((start cache names).run store (inTurn names.length)).callers[i]? = some c) :
    ∃ r, c.phase = .done r := by
  refine done_of_schedules store cache names (Nat.le_of_eq List.length_replicate.symm) ?_ hc
  intro schedule hs j hj
  rw [List.eq_of_mem_replicate hs]
  exact List.mem_range.2 hj

end Lookups

end ColumnFunctions.Secret
