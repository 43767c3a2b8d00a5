import ColumnFunctions.Proofs.Secret.Sound

namespace ColumnFunctions.Secret

/-- A request that was made, with its number among all for the name. -/
structure Fetch where
  caller : Nat
  name : String
  number : Nat

structure Move where
  caller : Nat
  name : String
  before : Phase
  after : Phase

namespace Move

def fetch? (m : Move) : Option Fetch :=
  match m.before, m.after with
  | .queued _, .asking _ number => some ⟨m.caller, m.name, number⟩
  | _, _ => none

def joins (m : Move) (name : String) : Bool :=
  match m.before, m.after with
  | .arrived _, .queued _ => m.name = name
  | _, _ => false

end Move

def fetches (past : List Move) : List Fetch := past.filterMap Move.fetch?

def joined (past : List Move) (name : String) : List Nat :=
  (past.filter (·.joins name)).map (·.caller)

def fetchers (past : List Move) (name : String) : List Nat :=
  ((fetches past).filter (·.name = name)).map (·.caller)

namespace Lookups

def move? (store : Store) (s : Lookups) (i : Nat) : Option Move :=
  match s.callers[i]?, (s.step store i).callers[i]? with
  | some c, some d => some ⟨i, c.name, c.phase, d.phase⟩
  | _, _ => none

def history (store : Store) : List Nat → Lookups → List Move
  | [], _ => []
  | i :: schedule, s => (s.move? store i).toList ++ history store schedule (s.step store i)

theorem Sound.move?_eq {s : Lookups} (h : Sound s) (store : Store) {i : Nat} {name : String}
    {p : Phase} (hc : s.callers[i]? = some ⟨name, p⟩) :
    ∃ p', s.move? store i = some ⟨i, name, p, p'⟩ ∧ Turn store s (s.step store i) i name p p' ∧
      (s.step store i).callers = s.callers.set i ⟨name, p'⟩ := by
  obtain ⟨p', ht, hs⟩ := h.turn store hc
  exact ⟨p', by rw [move?, hc, getElem?_of_set hc hs], ht, hs⟩

end Lookups

def Fetch.Told (store : Store) (f : Fetch) : Phase → Prop
  | .begun | .arrived _ | .queued _ => False
  | .asking _ number => number = f.number
  | .answered _ reply => reply = store f.name f.number
  | .failed _ e => keyOfReply f.name (store f.name f.number) = .error e
  | .done r => r = keyOfReply f.name (store f.name f.number)

theorem Fetch.Told.cases {store : Store} {f : Fetch} {p : Phase} (h : f.Told store p)
    (hp : p.inFlight = false) :
    (∃ e, keyOfReply f.name (store f.name f.number) = .error e) ∨
      ∃ key, keyOfReply f.name (store f.name f.number) = .ok key ∧ p = .done (.ok key) := by
  cases p with
  | begun | arrived | queued => cases h
  | asking | answered => cases hp
  | failed slot e => exact .inl ⟨e, h⟩
  | done r =>
    cases r with
    | error e => exact .inl ⟨e, h.symm⟩
    | ok key => exact .inr ⟨key, h.symm, rfl⟩

def Phase.hasAsked : Phase → Bool
  | .asking _ _ | .answered _ _ | .failed _ _ | .done (.error _) => true
  | .begun | .arrived _ | .queued _ | .done (.ok _) => false

namespace Lookups

/-- What requests there were, and what came of them, since there was just a cache. -/
structure Follows (store : Store) (cache : Cache) (log : List Fetch) (s : Lookups) : Prop
    extends Sound s where
  requests : s.requests = cache.requests ++ log.map (·.name)
  told : ∀ f ∈ log, ∃ c, s.callers[f.caller]? = some c ∧ c.name = f.name ∧
    f.Told store c.phase
  made : ∀ (i : Nat) (c : Caller), s.callers[i]? = some c → c.phase.hasAsked = true →
    ∃ f ∈ log, f.caller = i
  once : (log.map (·.caller)).Nodup
  shared : ∀ (i : Nat) (c : Caller) key, s.callers[i]? = some c → c.phase = .done (.ok key) →
    s.keyOf c.name = some key
  kept : ∀ name key, cache.key? name = some key → s.keyOf name = some key
  source : ∀ name key, s.keyOf name = some key → cache.key? name = some key ∨
    ∃ f ∈ log, f.name = name ∧ keyOfReply name (store name f.number) = .ok key
  last : log.Pairwise fun f g ↦
    f.name = g.name → ∃ e, keyOfReply f.name (store f.name f.number) = .error e
  unknown : ∀ f ∈ log, cache.key? f.name = none
  numbers : ∀ name, (log.filter (·.name = name)).map (·.number) =
    List.range' (cache.asked name) (log.countP (·.name = name))

variable {store : Store} {cache : Cache} {log : List Fetch} {s s' : Lookups} {i : Nat}
  {name : String} {p p' : Phase}

theorem Turn.fetch?_eq (ht : Turn store s s' i name p p') :
    ((Move.mk i name p p').fetch? = none ∧ s'.requests = s.requests) ∨
      ((Move.mk i name p p').fetch? = some ⟨i, name, s.requests.count name⟩ ∧
        s'.requests = s.requests ++ [name] ∧ s.keyOf name = none ∧
        (s.queueOf name).head? = some i ∧ ∃ slot, p = .queued slot ∧
          p' = .asking slot (s.requests.count name)) := by
  cases ht with
  | ask slot hk hh hkey hq hr => exact .inr ⟨rfl, hr, hk, hh, slot, rfl, rfl⟩
  | join slot hk out hkey hq hr | settle slot reply key hv hk hh hkey hq hr
  | fail slot reply e hv hk hh hkey hq hr => exact .inl ⟨rfl, hr⟩
  | find | take | wake | wait | hear | leave | rest =>
    next same => exact .inl ⟨rfl, same.requests⟩

theorem Turn.told (ht : Turn store s s' i name p p') {f : Fetch} (hf : f.name = name)
    (h : f.Told store p) : f.Told store p' := by
  subst hf
  cases ht with
  | find | take | join | wake | wait | ask => cases h
  | hear slot number => rw [show number = f.number from h]; rfl
  | settle slot reply key hv => rw [show reply = _ from h] at hv; exact hv.symm
  | fail slot reply e hv => rw [show reply = _ from h] at hv; exact hv
  | leave slot e => exact (show keyOfReply f.name (store f.name f.number) = .error e from h).symm
  | rest => exact h

theorem Turn.hasAsked (ht : Turn store s s' i name p p') (h : p'.hasAsked = true)
    (hn : (Move.mk i name p p').fetch? = none) : p.hasAsked = true := by
  cases ht with
  | find | take | join | wake | wait | settle => cases h
  | ask => cases hn
  | hear | fail | leave => rfl
  | rest => exact h

theorem fetches_append (past : List Move) (m : Move) :
    fetches (past ++ [m]) = fetches past ++ m.fetch?.toList := by
  rw [fetches, fetches, List.filterMap_append]
  cases h : m.fetch? <;> simp [h]

theorem Turn.keyOf_source (ht : Turn store s s' i name p p') {m : String} {key : Key}
    (h : s'.keyOf m = some key) : s.keyOf m = some key ∨
      m = name ∧ ∃ slot reply, p = .answered slot reply ∧ keyOfReply name reply = .ok key := by
  by_cases hm : m = name
  · subst hm
    cases ht with
    | join slot hk out hkey hq hr | ask slot hk hh hkey hq hr
    | fail slot reply e hv hk hh hkey hq hr => exact .inl (by rwa [hkey] at h)
    | settle slot reply key' hv hk hh hkey hq hr =>
      rw [hkey, Function.update_self] at h
      obtain rfl := Option.some.inj h
      exact .inr ⟨rfl, slot, reply, rfl, hv⟩
    | find | take | wake | wait | hear | leave | rest =>
      next same => exact .inl (by rwa [same.keyOf] at h)
  · exact .inl (by rwa [(ht.frame hm).1] at h)

theorem Turn.shared (ht : Turn store s s' i name p p') {key : Key} (h : p' = .done (.ok key)) :
    s'.keyOf name = some key ∨ p = .done (.ok key) := by
  cases ht with
  | take slot key' known same | wake slot key' known same =>
    cases h
    exact .inl (by rw [same.keyOf, known])
  | settle slot reply key' hv hk hh hkey hq hr =>
    cases h
    exact .inl (by rw [hkey, Function.update_self])
  | rest => exact .inr h
  | find | join | wait | ask | hear | fail | leave => cases h

theorem Follows.told_step (h : Follows store cache log s)
    (hc : s.callers[i]? = some ⟨name, p⟩) (ht : Turn store s s' i name p p')
    (hs : s'.callers = s.callers.set i ⟨name, p'⟩) {f : Fetch} (hf : f ∈ log) :
    ∃ c, s'.callers[f.caller]? = some c ∧ c.name = f.name ∧ f.Told store c.phase := by
  obtain ⟨c, hfc, hn, hp⟩ := h.told f hf
  by_cases hi : f.caller = i
  · subst hi
    obtain rfl := Option.some.inj (hc.symm.trans hfc)
    exact ⟨_, getElem?_of_set hc hs, hn, ht.told hn.symm hp⟩
  · exact ⟨c, (getElem?_of_ne hs hi).trans hfc, hn, hp⟩

/-- While a name has no key, and the first of its queue makes no request, all requests for it have
failed. -/
theorem Follows.error_of_unknown (h : Follows store cache log s) {slot : Nat}
    (hc : s.callers[i]? = some ⟨name, .queued slot⟩) (hk : s.keyOf name = none)
    (hh : (s.queueOf name).head? = some i) {f : Fetch} (hf : f ∈ log)
    (hn : f.name = name) : ∃ e, keyOfReply f.name (store f.name f.number) = .error e := by
  obtain ⟨c, hfc, hcn, hp⟩ := h.told f hf
  -- Only the first of the queue could have a request under way, and that one has yet to ask.
  have hi : c.phase.inFlight = false := by
    rw [Bool.eq_false_iff]
    intro hi
    have hhead := (h.inFlight f.caller c hfc hi).2
    rw [hcn, hn, hh] at hhead
    obtain rfl := Option.some.inj hhead
    obtain rfl := Option.some.inj (hc.symm.trans hfc)
    cases hi
  rcases hp.cases hi with he | ⟨key, -, hphase⟩
  · exact he
  · have hkey := h.shared f.caller c key hfc hphase
    rw [hcn, hn, hk] at hkey
    cases hkey

theorem Follows.shared_step (h : Follows store cache log s)
    (hc : s.callers[i]? = some ⟨name, p⟩) (ht : Turn store s s' i name p p')
    (hs : s'.callers = s.callers.set i ⟨name, p'⟩) (j : Nat) (c : Caller) (key : Key)
    (hj : s'.callers[j]? = some c) (hp : c.phase = .done (.ok key)) :
    s'.keyOf c.name = some key := by
  rw [hs] at hj
  rcases getElem?_set_cases hj with ⟨rfl, rfl⟩ | ⟨-, hj⟩
  · rcases ht.shared hp with hk | hold
    · exact hk
    · exact ht.keyOf_of_some (h.shared j ⟨name, p⟩ key hc hold)
  · exact ht.keyOf_of_some (h.shared j c key hj hp)

/-- A new key is the key of the reply to a request that was made. -/
theorem Follows.source_step (h : Follows store cache log s)
    (hc : s.callers[i]? = some ⟨name, p⟩) (ht : Turn store s s' i name p p') (m : String)
    (key : Key) (hk : s'.keyOf m = some key) : cache.key? m = some key ∨
      ∃ f ∈ log, f.name = m ∧ keyOfReply m (store m f.number) = .ok key := by
  rcases ht.keyOf_source hk with hold | ⟨rfl, slot, reply, rfl, hr⟩
  · exact h.source m key hold
  · obtain ⟨f, hf, rfl⟩ := h.made i _ hc rfl
    obtain ⟨c, hfc, hn, hp⟩ := h.told f hf
    obtain rfl := Option.some.inj (hc.symm.trans hfc)
    obtain rfl : m = f.name := hn
    rw [show reply = _ from hp] at hr
    exact .inr ⟨f, hf, rfl, hr⟩

theorem Follows.step_of_none (h : Follows store cache log s) (hsound : Sound s')
    (hc : s.callers[i]? = some ⟨name, p⟩) (ht : Turn store s s' i name p p')
    (hs : s'.callers = s.callers.set i ⟨name, p'⟩)
    (hn : (Move.mk i name p p').fetch? = none) (hr : s'.requests = s.requests) :
    Follows store cache log s' where
  toSound := hsound
  requests := by rw [hr, h.requests]
  told f := h.told_step hc ht hs
  made j c hj ha := by
    rw [hs] at hj
    rcases getElem?_set_cases hj with ⟨rfl, rfl⟩ | ⟨-, hj⟩
    · exact h.made _ _ hc (ht.hasAsked ha hn)
    · exact h.made j c hj ha
  once := h.once
  shared := h.shared_step hc ht hs
  kept m key hm := ht.keyOf_of_some (h.kept m key hm)
  source := h.source_step hc ht
  last := h.last
  unknown := h.unknown
  numbers := h.numbers

theorem Follows.step_of_some (h : Follows store cache log s) (hsound : Sound s') {slot : Nat}
    (hc : s.callers[i]? = some ⟨name, .queued slot⟩)
    (ht : Turn store s s' i name (.queued slot) (.asking slot (s.requests.count name)))
    (hs : s'.callers = s.callers.set i ⟨name, .asking slot (s.requests.count name)⟩)
    (hr : s'.requests = s.requests ++ [name]) (hk : s.keyOf name = none)
    (hh : (s.queueOf name).head? = some i) :
    Follows store cache (log ++ [⟨i, name, s.requests.count name⟩]) s' where
  toSound := hsound
  requests := by rw [hr, h.requests, List.map_append, List.append_assoc]; rfl
  told f hf := by
    rcases List.mem_append.1 hf with hf | hf
    · exact h.told_step hc ht hs hf
    · obtain rfl := List.mem_singleton.1 hf
      exact ⟨⟨name, .asking slot _⟩, getElem?_of_set hc hs, rfl, rfl⟩
  made j c hj ha := by
    rw [hs] at hj
    rcases getElem?_set_cases hj with ⟨rfl, rfl⟩ | ⟨-, hj⟩
    · exact ⟨_, List.mem_append_right _ (List.mem_singleton_self _), rfl⟩
    · obtain ⟨f, hf, hfj⟩ := h.made j c hj ha
      exact ⟨f, List.mem_append_left _ hf, hfj⟩
  once := by
    rw [List.map_append, List.nodup_append]
    refine ⟨h.once, List.nodup_singleton _, ?_⟩
    intro a ha b hb hab
    obtain ⟨f, hf, rfl⟩ := List.mem_map.1 ha
    obtain rfl := List.mem_singleton.1 hb
    obtain ⟨c, hfc, -, hp⟩ := h.told f hf
    rw [hab] at hfc
    obtain rfl := Option.some.inj (hc.symm.trans hfc)
    exact hp
  shared := h.shared_step hc ht hs
  kept m key hm := ht.keyOf_of_some (h.kept m key hm)
  source m key hm := by
    rcases h.source_step hc ht m key hm with hc | ⟨f, hf, hfm⟩
    · exact .inl hc
    · exact .inr ⟨f, List.mem_append_left _ hf, hfm⟩
  last := by
    rw [List.pairwise_append]
    refine ⟨h.last, List.pairwise_singleton _ _, ?_⟩
    intro f hf g hg hn
    obtain rfl := List.mem_singleton.1 hg
    exact h.error_of_unknown hc hk hh hf hn
  unknown f hf := by
    rcases List.mem_append.1 hf with hf | hf
    · exact h.unknown f hf
    · obtain rfl := List.mem_singleton.1 hf
      cases hkey : cache.key? name with
      | none => rfl
      | some key =>
        rw [h.kept name key hkey] at hk
        cases hk
  numbers m := by
    have hcount : s.requests.count name =
        cache.asked name + log.countP (·.name = name) := by
      rw [h.requests, List.count_append, Cache.asked, List.count_eq_countP (l := log.map _),
        List.countP_map]
      congr 2
    rw [List.filter_append, List.map_append, List.countP_append, h.numbers]
    by_cases hm : name = m
    · subst hm
      simp [List.range'_concat, hcount]
    · simp [hm]

theorem Follows.step (h : Follows store cache log s) (i : Nat) :
    Follows store cache (log ++ fetches (s.move? store i).toList) (s.step store i) := by
  cases hi : s.callers[i]? with
  | none => simpa [move?, fetches, Lookups.step, hi] using h
  | some c =>
    obtain ⟨name, p⟩ := c
    obtain ⟨p', hm, ht, hs⟩ := h.move?_eq store hi
    have hsound := h.toSound.step store i
    rcases ht.fetch?_eq with ⟨hn, hr⟩ | ⟨hn, hr, hk, hh, slot, rfl, rfl⟩
    · simpa [hm, fetches, hn] using h.step_of_none hsound hi ht hs hn hr
    · simpa [hm, fetches, hn] using h.step_of_some hsound hi ht hs hr hk hh

theorem Follows.run (h : Follows store cache log s) (schedule : List Nat) :
    Follows store cache (log ++ fetches (s.history store schedule)) (s.run store schedule) := by
  induction schedule generalizing log s with
  | nil => simpa [history, fetches, Lookups.run] using h
  | cons i schedule ih =>
    have := ih (h.step i)
    rwa [List.append_assoc, fetches, fetches, ← List.filterMap_append] at this

theorem Sound.keyOf_step (h : Sound s) (store : Store) (i : Nat) {m : String} {key : Key}
    (hk : s.keyOf m = some key) : (s.step store i).keyOf m = some key := by
  cases hi : s.callers[i]? with
  | none => simpa only [Lookups.step, hi] using hk
  | some c =>
    obtain ⟨name, p⟩ := c
    obtain ⟨p', ht, -⟩ := h.turn store hi
    exact ht.keyOf_of_some hk

theorem Sound.keyOf_run (h : Sound s) (store : Store) (schedule : List Nat) {m : String} {key : Key}
    (hk : s.keyOf m = some key) : (s.run store schedule).keyOf m = some key ∧
      ∀ f ∈ fetches (s.history store schedule), f.name ≠ m := by
  induction schedule generalizing s with
  | nil => exact ⟨hk, fun f hf ↦ absurd hf List.not_mem_nil⟩
  | cons i schedule ih =>
    obtain ⟨hrun, hout⟩ := ih (h.step store i) (h.keyOf_step store i hk)
    refine ⟨hrun, ?_⟩
    intro f hf
    rw [history, fetches, List.filterMap_append, List.mem_append] at hf
    rcases hf with hf | hf
    · cases hi : s.callers[i]? with
      | none => simp [move?, hi] at hf
      | some c =>
        obtain ⟨name, p⟩ := c
        obtain ⟨p', hm, ht, -⟩ := h.move?_eq store hi
        rcases ht.fetch?_eq with ⟨hn, -⟩ | ⟨hn, -, hk', -⟩
        · simp [hm, hn] at hf
        · obtain rfl : f = _ := by simpa [hm, hn] using hf
          rintro rfl
          rw [hk'] at hk
          cases hk
    · exact hout f hf

theorem Follows.keyOf_of_fetch (h : Follows store cache log s) {f : Fetch} {key key' : Key}
    (hf : f ∈ log) (hr : keyOfReply f.name (store f.name f.number) = .ok key)
    (hk : s.keyOf f.name = some key') : key' = key := by
  obtain ⟨c, hc, hn, ht⟩ := h.told f hf
  have hi : c.phase.inFlight = false := by
    rw [Bool.eq_false_iff]
    intro hi
    have hnone := (h.inFlight f.caller c hc hi).1
    rw [hn, hk] at hnone
    cases hnone
  rcases ht.cases hi with ⟨e, he⟩ | ⟨key₁, hkey, hp⟩
  · rw [hr] at he
    cases he
  · obtain rfl := Except.ok.inj (hr.symm.trans hkey)
    have hs := h.shared f.caller c key hc hp
    rw [hn, hk] at hs
    exact Option.some.inj hs

theorem follows_start (store : Store) (cache : Cache) (names : List String) :
    Follows store cache [] (start cache names) where
  toSound := sound_start cache names
  requests := by simp [start]
  told f hf := absurd hf List.not_mem_nil
  made i c hc ha := by
    obtain ⟨name, -, rfl⟩ := getElem?_start.1 hc
    cases ha
  once := List.nodup_nil
  shared i c key hc hp := by
    obtain ⟨name, -, rfl⟩ := getElem?_start.1 hc
    cases hp
  kept name key hk := by rw [keyOf_start, hk]
  source name key hk := .inl (by rwa [keyOf_start] at hk)
  last := .nil
  unknown f hf := absurd hf List.not_mem_nil
  numbers name := rfl

end Lookups

end ColumnFunctions.Secret
