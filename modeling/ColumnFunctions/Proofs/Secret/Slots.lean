import ColumnFunctions.Secret.Lookup
import Mathlib.Logic.Function.Basic

namespace ColumnFunctions.Secret.Lookups

def slotOf (s : Lookups) (name : String) : Option Slot :=
  (s.current.lookup name).bind fun slot ↦ s.slots[slot]?

def keyOf (s : Lookups) (name : String) : Option Key := (s.slotOf name).bind (·.key)

def queueOf (s : Lookups) (name : String) : List Nat := ((s.slotOf name).map (·.queue)).getD []

/-- Slots stand under their own names, and no name has a key that others do not find. -/
structure Slotted (s : Lookups) : Prop where
  named : ∀ name slot, (name, slot) ∈ s.current → ∃ x, s.slots[slot]? = some x ∧ x.name = name
  first : ∀ name slot, (name, slot) ∈ s.current → s.keyOf name = none → s.key? slot = none

variable {s s' : Lookups} {name : String}

theorem keyOf_of_slotOf {x : Option Slot} (h : s'.slotOf = Function.update s.slotOf name x) :
    s'.keyOf = Function.update s.keyOf name (x.bind (·.key)) := by
  funext m
  by_cases hm : m = name
  · rw [hm, keyOf, h, Function.update_self, Function.update_self]
  · rw [keyOf, h, Function.update_of_ne hm, Function.update_of_ne hm, keyOf]

theorem queueOf_of_slotOf {x : Option Slot} (h : s'.slotOf = Function.update s.slotOf name x) :
    s'.queueOf = Function.update s.queueOf name ((x.map (·.queue)).getD []) := by
  funext m
  by_cases hm : m = name
  · rw [hm, queueOf, h, Function.update_self, Function.update_self]
  · rw [queueOf, h, Function.update_of_ne hm, Function.update_of_ne hm, queueOf]

theorem mem_of_lookup {l : List (String × Nat)} {slot : Nat} (h : l.lookup name = some slot) :
    (name, slot) ∈ l := by
  obtain ⟨l₁, l₂, rfl, -⟩ := List.lookup_eq_some_iff.1 h
  exact List.mem_append_right _ (List.mem_cons_self ..)

theorem Slotted.slotOf_eq (h : Slotted s) {slot : Nat} (hl : s.current.lookup name = some slot) :
    ∃ x, s.slots[slot]? = some x ∧ x.name = name ∧ s.slotOf name = some x := by
  obtain ⟨x, hx, hn⟩ := h.named name slot (mem_of_lookup hl)
  exact ⟨x, hx, hn, by rw [slotOf, hl, Option.bind_some, hx]⟩

theorem key?_eq_keyOf {slot : Nat} (hl : s.current.lookup name = some slot) :
    s.key? slot = s.keyOf name := by
  rw [key?, keyOf, slotOf, hl, Option.bind_some]

theorem head?_eq_queueOf {slot : Nat} (hl : s.current.lookup name = some slot) :
    s.slots[slot]?.bind (·.queue.head?) = (s.queueOf name).head? := by
  rw [queueOf, slotOf, hl, Option.bind_some]
  cases s.slots[slot]? <;> rfl

theorem Slotted.slotOf_modifySlot (h : Slotted s) {slot : Nat}
    (hl : s.current.lookup name = some slot) (f : Slot → Slot) :
    (s.modifySlot slot f).slotOf = Function.update s.slotOf name ((s.slotOf name).map f) := by
  obtain ⟨x, hx, hn, hs⟩ := h.slotOf_eq hl
  funext m
  by_cases hm : m = name
  · subst hm
    rw [Function.update_self, hs, slotOf, modifySlot, hl, Option.bind_some, List.getElem?_modify_eq,
      hx]
    rfl
  · rw [Function.update_of_ne hm, slotOf, slotOf, modifySlot]
    cases hlm : s.current.lookup m with
    | none => rfl
    | some b =>
      -- A slot has one name, so no other name has the slot that is changed.
      have hb : slot ≠ b := by
        rintro rfl
        obtain ⟨y, hy, hyn⟩ := h.named m slot (mem_of_lookup hlm)
        rw [hx] at hy
        cases hy
        exact hm (hyn.symm.trans hn)
      exact List.getElem?_modify_ne f s.slots hb

theorem Slotted.slotOf_make (h : Slotted s) (hl : s.current.lookup name = none) :
    ({ s with slots := s.slots ++ [{ name := name }],
              current := s.current ++ [(name, s.slots.length)] } : Lookups).slotOf =
      Function.update s.slotOf name (some { name := name }) := by
  funext m
  by_cases hm : m = name
  · subst hm
    simp [slotOf, List.lookup_append, hl]
  · rw [Function.update_of_ne hm, slotOf, slotOf, List.lookup_append]
    have hs : [(name, s.slots.length)].lookup m = none := by
      rw [List.lookup_cons, beq_false_of_ne hm]
      rfl
    rw [hs, Option.or_none]
    cases hlm : s.current.lookup m with
    | none => rfl
    | some b =>
      obtain ⟨x, hx, -⟩ := h.named m b (mem_of_lookup hlm)
      rw [Option.bind_some, Option.bind_some,
        List.getElem?_append_left (List.getElem?_eq_some_iff.1 hx).1]

theorem lookup_filter_ne (l : List (String × Nat)) (m : String) :
    (l.filter (·.1 ≠ name)).lookup m = if m = name then none else l.lookup m := by
  induction l with
  | nil => simp
  | cons p l ih =>
    obtain ⟨n, slot⟩ := p
    by_cases hn : n = name
    · rw [List.filter_cons_of_neg (by simp [hn]), ih, List.lookup_cons]
      by_cases hm : m = name
      · rw [if_pos hm, if_pos hm]
      · rw [if_neg hm, if_neg hm, beq_false_of_ne (hn ▸ hm)]
    · rw [List.filter_cons_of_pos (by simp [hn]), List.lookup_cons, List.lookup_cons, ih]
      by_cases hm : m = name
      · rw [if_pos hm, if_pos hm, beq_false_of_ne (hm ▸ Ne.symm hn)]
      · rw [if_neg hm, if_neg hm]

theorem slotOf_remove (s : Lookups) (name : String) :
    ({ s with current := s.current.filter (·.1 ≠ name) } : Lookups).slotOf =
      Function.update s.slotOf name none := by
  funext m
  rw [slotOf, lookup_filter_ne]
  by_cases hm : m = name
  · rw [if_pos hm, hm, Function.update_self]
    rfl
  · rw [if_neg hm, Function.update_of_ne hm]
    rfl

theorem Slotted.of_eq (h : Slotted s) (hs : s'.slots = s.slots) (hc : s'.current = s.current) :
    Slotted s' where
  named m b hm := by
    rw [hs]
    exact h.named m b (hc ▸ hm)
  first m b hm hkm := by
    rw [keyOf, slotOf, hs, hc] at hkm
    rw [key?, hs]
    exact h.first m b (hc ▸ hm) hkm

theorem Slotted.modifySlot (h : Slotted s) {slot : Nat} (hl : s.current.lookup name = some slot)
    {f : Slot → Slot} (hn : ∀ x, (f x).name = x.name) (hk : ∀ x, (f x).key = none → x.key = none) :
    Slotted (s.modifySlot slot f) where
  named m b hm := by
    obtain ⟨x, hx, hxn⟩ := h.named m b hm
    refine ⟨if slot = b then f x else x, ?_, ?_⟩
    · rw [Lookups.modifySlot, List.getElem?_modify, hx]
      rfl
    · split
      · rw [hn, hxn]
      · exact hxn
  first m b hm hkm := by
    obtain ⟨x, hx, hxn, hs⟩ := h.slotOf_eq hl
    rw [keyOf_of_slotOf (h.slotOf_modifySlot hl f), hs] at hkm
    have hold : s.keyOf m = none := by
      by_cases hmn : m = name
      · rw [hmn, Function.update_self] at hkm
        rw [hmn, keyOf, hs]
        exact hk x hkm
      · rwa [Function.update_of_ne hmn] at hkm
    obtain ⟨y, hy, hyn⟩ := h.named m b hm
    have hb := h.first m b hm hold
    by_cases hsb : slot = b
    · subst hsb
      obtain rfl : x = y := Option.some.inj (hx.symm.trans hy)
      rw [← hyn, hxn, Function.update_self] at hkm
      rw [key?, Lookups.modifySlot, List.getElem?_modify_eq, hx]
      exact hkm
    · rw [key?, Lookups.modifySlot, List.getElem?_modify_ne f s.slots hsb]
      exact hb

theorem Slotted.make (h : Slotted s) (hl : s.current.lookup name = none) :
    Slotted { s with slots := s.slots ++ [{ name := name }],
                     current := s.current ++ [(name, s.slots.length)] } where
  named m b hm := by
    rcases List.mem_append.1 hm with hm | hm
    · obtain ⟨x, hx, hxn⟩ := h.named m b hm
      exact ⟨x, by rw [List.getElem?_append_left (List.getElem?_eq_some_iff.1 hx).1, hx], hxn⟩
    · cases List.mem_singleton.1 hm
      exact ⟨{ name := name }, List.getElem?_concat_length, rfl⟩
  first m b hm hkm := by
    rw [keyOf_of_slotOf (h.slotOf_make hl)] at hkm
    rcases List.mem_append.1 hm with hin | hin
    · have hmn : m ≠ name := by
        rintro rfl
        exact bne_iff_ne.1 (List.lookup_eq_none_iff.1 hl (m, b) hin) rfl
      rw [Function.update_of_ne hmn] at hkm
      obtain ⟨x, hx, -⟩ := h.named m b hin
      have hb := h.first m b hin hkm
      rw [key?, hx] at hb
      rw [key?, List.getElem?_append_left (List.getElem?_eq_some_iff.1 hx).1, hx]
      exact hb
    · cases List.mem_singleton.1 hin
      rw [key?, List.getElem?_concat_length]
      rfl

theorem Slotted.remove (h : Slotted s) (name : String) :
    Slotted { s with current := s.current.filter (·.1 ≠ name) } where
  named m b hm := h.named m b (List.mem_filter.1 hm).1
  first m b hm hkm := by
    obtain ⟨hm, hmn⟩ := List.mem_filter.1 hm
    rw [keyOf_of_slotOf (slotOf_remove s name),
      Function.update_of_ne (of_decide_eq_true hmn)] at hkm
    exact h.first m b hm hkm

theorem callers_setPhase {s : Lookups} {i : Nat} {name : String} {p : Phase}
    (hc : s.callers[i]? = some ⟨name, p⟩) (p' : Phase) :
    (s.setPhase i p').callers = s.callers.set i ⟨name, p'⟩ := by
  obtain ⟨hi, hg⟩ := List.getElem?_eq_some_iff.1 hc
  refine List.ext_getElem? fun j ↦ ?_
  rw [setPhase, List.getElem?_modify, List.getElem?_set]
  by_cases hj : i = j
  · subst hj
    simp [hi, hg]
  · simp [hj]

theorem set_callers_self {s : Lookups} {i : Nat} {c : Caller} (hc : s.callers[i]? = some c) :
    s.callers = s.callers.set i c := by
  obtain ⟨hi, rfl⟩ := List.getElem?_eq_some_iff.1 hc
  rw [List.set_getElem_self]

theorem getElem?_of_set {i : Nat} {c d : Caller} (hc : s.callers[i]? = some c)
    (hs : s'.callers = s.callers.set i d) : s'.callers[i]? = some d := by
  rw [hs, List.getElem?_set_self (List.getElem?_eq_some_iff.1 hc).1]

theorem getElem?_of_ne {i j : Nat} {c : Caller} (hs : s'.callers = s.callers.set i c)
    (hj : j ≠ i) : s'.callers[j]? = s.callers[j]? := by
  rw [hs, List.getElem?_set_ne (Ne.symm hj)]

theorem getElem?_set_cases {α : Type} {l : List α} {i j : Nat} {a b : α}
    (h : (l.set i a)[j]? = some b) : j = i ∧ b = a ∨ j ≠ i ∧ l[j]? = some b := by
  rw [List.getElem?_set] at h
  by_cases hij : i = j
  · rw [if_pos hij] at h
    split at h
    · exact .inl ⟨hij.symm, (Option.some.inj h).symm⟩
    · cases h
  · rw [if_neg hij] at h
    exact .inr ⟨Ne.symm hij, h⟩

theorem lookup_zipIdx {l : List (String × Key)} {slots : List Slot} {k : Nat}
    (h : ∀ (j : Nat) e, l[j]? = some e → slots[k + j]? = some { name := e.1, key := some e.2 })
    (name : String) :
    ((((l.zipIdx k).map fun (entry, n) ↦ (entry.1, n)).lookup name).bind fun slot ↦ slots[slot]?) =
      (l.lookup name).map fun key ↦ { name := name, key := some key } := by
  induction l generalizing k with
  | nil => rfl
  | cons entry l ih =>
    obtain ⟨m, key⟩ := entry
    rw [List.zipIdx_cons, List.map_cons, List.lookup_cons, List.lookup_cons]
    by_cases hm : name = m
    · subst hm
      rw [beq_self_eq_true]
      exact h 0 _ rfl
    · rw [beq_false_of_ne hm]
      apply ih
      intro j e he
      rw [Nat.add_assoc, Nat.add_comm 1]
      exact h (j + 1) e he

theorem slotOf_start (cache : Cache) (names : List String) (name : String) :
    (start cache names).slotOf name =
      (cache.key? name).map fun key ↦ { name := name, key := some key } := by
  refine lookup_zipIdx (fun j e he ↦ ?_) name
  rw [start, Nat.zero_add, List.getElem?_map, he]
  rfl

theorem keyOf_start (cache : Cache) (names : List String) (name : String) :
    (start cache names).keyOf name = cache.key? name := by
  rw [keyOf, slotOf_start]
  cases cache.key? name <;> rfl

theorem queueOf_start (cache : Cache) (names : List String) (name : String) :
    (start cache names).queueOf name = [] := by
  rw [queueOf, slotOf_start]
  cases cache.key? name <;> rfl

theorem getElem?_start {cache : Cache} {names : List String} {i : Nat} {c : Caller} :
    (start cache names).callers[i]? = some c ↔
      ∃ name, names[i]? = some name ∧ c = ⟨name, .begun⟩ := by
  rw [start, List.getElem?_map, Option.map_eq_some_iff]
  exact exists_congr fun _ ↦ and_congr_right fun _ ↦ eq_comm

theorem names_start (cache : Cache) (names : List String) :
    (start cache names).callers.map (·.name) = names := by
  rw [start, List.map_map]
  exact List.map_id names

theorem Slotted.key?_cache (h : Slotted s) (name : String) : s.cache.key? name = s.keyOf name := by
  cases hk : s.keyOf name with
  | none =>
    refine List.lookup_eq_none_iff.2 fun p hp ↦ bne_iff_ne.2 ?_
    obtain ⟨⟨m, slot⟩, hm, hf⟩ := List.mem_filterMap.1 hp
    obtain ⟨key, hkey, rfl⟩ := Option.map_eq_some_iff.1 hf
    rintro rfl
    rw [h.first _ slot hm hk] at hkey
    cases hkey
  | some key =>
    rw [keyOf, slotOf, Option.bind_eq_some_iff] at hk
    obtain ⟨x, hx, hkey⟩ := hk
    obtain ⟨slot, hl, hslot⟩ := Option.bind_eq_some_iff.1 hx
    obtain ⟨l₁, l₂, hcur, hne⟩ := List.lookup_eq_some_iff.1 hl
    have hks : s.key? slot = some key := by rw [key?, hslot, Option.bind_some, hkey]
    refine List.lookup_eq_some_iff.2 ⟨_, _, by
      simp only [Lookups.cache, hcur, List.filterMap_append, List.filterMap_cons, hks,
        Option.map_some]
      rfl, fun p hp ↦ ?_⟩
    obtain ⟨⟨m, slot'⟩, hm, hf⟩ := List.mem_filterMap.1 hp
    obtain ⟨key', -, rfl⟩ := Option.map_eq_some_iff.1 hf
    exact hne (m, slot') hm

end ColumnFunctions.Secret.Lookups
