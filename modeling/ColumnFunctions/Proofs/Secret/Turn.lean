import ColumnFunctions.Proofs.Secret.Slots

namespace ColumnFunctions.Secret

namespace Phase

def waits : Phase → Bool
  | .queued _ | .asking _ _ | .answered _ _ => true
  | .begun | .arrived _ | .failed _ _ | .done _ => false

def inFlight : Phase → Bool
  | .asking _ _ | .answered _ _ => true
  | .begun | .arrived _ | .queued _ | .failed _ _ | .done _ => false

theorem slot?_of_waits {p : Phase} (h : p.waits = true) : ∃ slot, p.slot? = some slot := by
  cases p <;> first | exact ⟨_, rfl⟩ | cases h

end Phase

namespace Lookups

structure Same (s s' : Lookups) : Prop where
  keyOf : s'.keyOf = s.keyOf
  queueOf : s'.queueOf = s.queueOf
  requests : s'.requests = s.requests

/-- What a step of a caller does: to its phase, and as it is seen from names. -/
inductive Turn (store : Store) (s s' : Lookups) (i : Nat) (name : String) : Phase → Phase → Prop
  | find (slot : Nat) (found : s'.current.lookup name = some slot) (same : Same s s') :
    Turn store s s' i name .begun (.arrived slot)
  | take (slot : Nat) (key : Key) (known : s.keyOf name = some key) (same : Same s s') :
    Turn store s s' i name (.arrived slot) (.done (.ok key))
  | join (slot : Nat) (unknown : s.keyOf name = none) (out : i ∉ s.queueOf name)
    (keyOf : s'.keyOf = s.keyOf)
    (queueOf : s'.queueOf = Function.update s.queueOf name (s.queueOf name ++ [i]))
    (requests : s'.requests = s.requests) :
    Turn store s s' i name (.arrived slot) (.queued slot)
  | wake (slot : Nat) (key : Key) (known : s.keyOf name = some key) (same : Same s s') :
    Turn store s s' i name (.queued slot) (.done (.ok key))
  | wait (slot : Nat) (unknown : s.keyOf name = none) (behind : (s.queueOf name).head? ≠ some i)
    (same : Same s s') : Turn store s s' i name (.queued slot) (.queued slot)
  | ask (slot : Nat) (unknown : s.keyOf name = none) (head : (s.queueOf name).head? = some i)
    (keyOf : s'.keyOf = s.keyOf) (queueOf : s'.queueOf = s.queueOf)
    (requests : s'.requests = s.requests ++ [name]) :
    Turn store s s' i name (.queued slot) (.asking slot (s.requests.count name))
  | hear (slot number : Nat) (unknown : s.keyOf name = none)
    (head : (s.queueOf name).head? = some i) (same : Same s s') :
    Turn store s s' i name (.asking slot number) (.answered slot (store name number))
  | settle (slot : Nat) (reply : Reply) (key : Key) (valid : keyOfReply name reply = .ok key)
    (unknown : s.keyOf name = none) (head : (s.queueOf name).head? = some i)
    (keyOf : s'.keyOf = Function.update s.keyOf name (some key))
    (queueOf : s'.queueOf = Function.update s.queueOf name [])
    (requests : s'.requests = s.requests) :
    Turn store s s' i name (.answered slot reply) (.done (.ok key))
  | fail (slot : Nat) (reply : Reply) (e : Failure) (invalid : keyOfReply name reply = .error e)
    (unknown : s.keyOf name = none) (head : (s.queueOf name).head? = some i)
    (keyOf : s'.keyOf = s.keyOf)
    (queueOf : s'.queueOf = Function.update s.queueOf name (s.queueOf name).tail)
    (requests : s'.requests = s.requests) :
    Turn store s s' i name (.answered slot reply) (.failed slot e)
  | leave (slot : Nat) (e : Failure) (same : Same s s') :
    Turn store s s' i name (.failed slot e) (.done (.error e))
  | rest (result : Except Failure Key) (same : Same s s') :
    Turn store s s' i name (.done result) (.done result)

def Waiting (s : Lookups) (name : String) (i : Nat) : Prop :=
  ∃ c : Caller, s.callers[i]? = some c ∧ c.name = name ∧ c.phase.waits = true

/-- What holds whenever callers take their steps. -/
structure Sound (s : Lookups) : Prop extends Slotted s where
  held : ∀ (i : Nat) (c : Caller) slot, s.callers[i]? = some c → c.phase.slot? = some slot →
    s.current.lookup c.name = some slot
  nodup : ∀ name, (s.queueOf name).Nodup
  queued : ∀ name i, i ∈ s.queueOf name ↔ s.keyOf name = none ∧ s.Waiting name i
  inFlight : ∀ (i : Nat) (c : Caller), s.callers[i]? = some c → c.phase.inFlight = true →
    s.keyOf c.name = none ∧ (s.queueOf c.name).head? = some i

variable {s s' : Lookups} {name : String}

theorem same_of_slotOf {x : Option Slot} (h : s'.slotOf = Function.update s.slotOf name x)
    (hk : x.bind (·.key) = s.keyOf name) (hq : (x.map (·.queue)).getD [] = s.queueOf name)
    (hr : s'.requests = s.requests) : Same s s' where
  keyOf := by rw [keyOf_of_slotOf h, hk, Function.update_eq_self]
  queueOf := by rw [queueOf_of_slotOf h, hq, Function.update_eq_self]
  requests := hr

theorem eq_of_countP_le_one {α : Type} {p : α → Bool} {l : List α} (h : l.countP p ≤ 1) {i j : Nat}
    {a b : α} (ha : l[i]? = some a) (hb : l[j]? = some b) (hpa : p a = true) (hpb : p b = true) :
    i = j := by
  induction l generalizing i j with
  | nil => simp at ha
  | cons x l ih =>
    have hpos : ∀ {k c}, l[k]? = some c → p c = true → 0 < l.countP p := fun hk hp ↦
      List.countP_pos_iff.2 ⟨_, List.mem_of_getElem? hk, hp⟩
    rw [List.countP_cons] at h
    cases i with
    | zero =>
      cases j with
      | zero => rfl
      | succ j =>
        obtain rfl : x = a := by simpa using ha
        have := hpos hb hpb
        rw [if_pos hpa] at h
        omega
    | succ i =>
      cases j with
      | zero =>
        obtain rfl : x = b := by simpa using hb
        have := hpos ha hpa
        rw [if_pos hpb] at h
        omega
      | succ j => rw [ih (by omega) ha hb]

theorem Sound.queueOf_of_holders (h : Sound s) {i slot : Nat} {name : String} {e : Failure}
    (hc : s.callers[i]? = some ⟨name, .failed slot e⟩) (hn : s.holders slot ≤ 1) :
    s.queueOf name = [] := by
  apply List.eq_nil_iff_forall_not_mem.2
  intro j hj
  obtain ⟨-, d, hd, rfl, hw⟩ := (h.queued name j).1 hj
  obtain ⟨slot', hslot⟩ := Phase.slot?_of_waits hw
  have hl := h.held i _ slot hc rfl
  have hl' := h.held j d slot' hd hslot
  obtain rfl : slot = slot' := by
    rw [hl] at hl'
    exact Option.some.inj hl'
  obtain rfl := eq_of_countP_le_one hn hc hd (decide_eq_true rfl) (decide_eq_true hslot)
  rw [← Option.some.inj (hc.symm.trans hd)] at hw
  cases hw

theorem Sound.turn (h : Sound s) (store : Store) {i : Nat} {name : String} {p : Phase}
    (hc : s.callers[i]? = some ⟨name, p⟩) :
    ∃ p', Turn store s (s.step store i) i name p p' ∧
      (s.step store i).callers = s.callers.set i ⟨name, p'⟩ := by
  cases p with
  | begun =>
    simp only [step, hc, arrive]
    cases hl : s.current.lookup name with
    | some slot => exact ⟨_, .find slot hl ⟨rfl, rfl, rfl⟩, callers_setPhase hc _⟩
    | none =>
      have hs : s.slotOf name = none := by rw [slotOf, hl, Option.bind_none]
      refine ⟨_, .find s.slots.length ?_ (same_of_slotOf (h.slotOf_make hl) ?_ ?_ rfl),
        callers_setPhase (s := { s with slots := _, current := _ }) hc _⟩
      · refine (List.lookup_append ..).trans ?_
        rw [hl, Option.none_or, List.lookup_cons_self]
      · rw [keyOf, hs]
        rfl
      · rw [queueOf, hs]
        rfl
  | arrived slot =>
    have hl := h.held i _ slot hc rfl
    obtain ⟨x, -, -, hs⟩ := h.slotOf_eq hl
    simp only [step, hc, enqueue, key?_eq_keyOf hl]
    cases hk : s.keyOf name with
    | some key => exact ⟨_, .take slot key hk ⟨rfl, rfl, rfl⟩, callers_setPhase hc _⟩
    | none =>
      have hm := h.slotOf_modifySlot hl fun x ↦ { x with queue := x.queue ++ [i] }
      refine ⟨_, .join slot hk (fun hi ↦ ?_) ?_ ?_ rfl,
        callers_setPhase (s := s.modifySlot slot _) hc _⟩
      · obtain ⟨-, c, hci, -, hw⟩ := (h.queued name i).1 hi
        rw [hc] at hci
        cases hci
        cases hw
      · refine (keyOf_of_slotOf hm).trans ?_
        rw [Function.update_eq_self_iff, keyOf, hs]
        rfl
      · refine (queueOf_of_slotOf hm).trans ?_
        rw [queueOf, hs]
        rfl
  | queued slot =>
    have hl := h.held i _ slot hc rfl
    simp only [step, hc, request, key?_eq_keyOf hl, head?_eq_queueOf hl]
    cases hk : s.keyOf name with
    | some key => exact ⟨_, .wake slot key hk ⟨rfl, rfl, rfl⟩, callers_setPhase hc _⟩
    | none =>
      by_cases hi : (s.queueOf name).head? = some i
      · simp only [hi, if_true]
        exact ⟨_, .ask slot hk hi rfl rfl rfl,
          callers_setPhase (s := { s with requests := _ }) hc _⟩
      · simp only [hi, if_false]
        exact ⟨_, .wait slot hk hi ⟨rfl, rfl, rfl⟩, set_callers_self hc⟩
  | asking slot number =>
    obtain ⟨hk, hi⟩ := h.inFlight i _ hc rfl
    simp only [step, hc]
    exact ⟨_, .hear slot number hk hi ⟨rfl, rfl, rfl⟩, callers_setPhase hc _⟩
  | answered slot reply =>
    obtain ⟨hk, hi⟩ := h.inFlight i _ hc rfl
    have hl := h.held i _ slot hc rfl
    obtain ⟨x, -, -, hs⟩ := h.slotOf_eq hl
    simp only [step, hc, resolve]
    cases hr : keyOfReply name reply with
    | ok key =>
      have hm := h.slotOf_modifySlot hl fun x ↦ { x with key := some key, queue := [] }
      refine ⟨_, .settle slot reply key hr hk hi ?_ ?_ rfl,
        callers_setPhase (s := s.modifySlot slot _) hc _⟩
      · refine (keyOf_of_slotOf hm).trans ?_
        rw [hs]
        rfl
      · refine (queueOf_of_slotOf hm).trans ?_
        rw [hs]
        rfl
    | error e =>
      have hm := h.slotOf_modifySlot hl fun x ↦ { x with queue := x.queue.tail }
      refine ⟨_, .fail slot reply e hr hk hi ?_ ?_ rfl,
        callers_setPhase (s := s.modifySlot slot _) hc _⟩
      · refine (keyOf_of_slotOf hm).trans ?_
        rw [Function.update_eq_self_iff, keyOf, hs]
        rfl
      · refine (queueOf_of_slotOf hm).trans ?_
        rw [queueOf, hs]
        rfl
  | failed slot e =>
    have hl := h.held i _ slot hc rfl
    simp only [step, hc, discard]
    split
    · next hd =>
      -- The slot that goes has neither a key nor a queue, as one that was never made.
      obtain ⟨-, hn, hk⟩ := hd
      rw [key?_eq_keyOf hl, Option.isNone_iff_eq_none] at hk
      exact ⟨_, .leave slot e (same_of_slotOf (slotOf_remove s name) hk.symm
        (h.queueOf_of_holders hc hn).symm rfl),
        callers_setPhase (s := { s with current := _ }) hc _⟩
    · exact ⟨_, .leave slot e ⟨rfl, rfl, rfl⟩, callers_setPhase hc _⟩
  | done result =>
    simp only [step, hc]
    exact ⟨_, .rest result ⟨rfl, rfl, rfl⟩, set_callers_self hc⟩

end Lookups

end ColumnFunctions.Secret
