import ColumnFunctions.Proofs.Base64
import ColumnFunctions.Secret.Cache
import Mathlib.Data.ENat.Lattice

namespace ColumnFunctions.Secret

/-- What a reply has for the one who asked for a name: the key whose canonical Base64 text it is, or
the reason why it is none. -/
inductive Gives (name : String) : Reply → Except Failure Key → Prop
  | key (key : Key) : Gives name (.ok (Base64.encode key.val)) (.ok key)
  | wrongLength (b : Bytes) (h : b.length ≠ 32) :
      Gives name (.ok (Base64.encode b)) (.error (.wrongLength name b.length))
  | notBase64 (text : String) (h : ∀ b, text ≠ Base64.encode b) :
      Gives name (.ok text) (.error (.notBase64 name))
  | notFetched (cause : StoreFailure) : Gives name (.error cause) (.error (.notFetched name cause))

theorem exists_gives (name : String) (reply : Reply) : ∃ r, Gives name reply r := by
  cases reply with
  | error cause => exact ⟨_, .notFetched cause⟩
  | ok text =>
    by_cases htext : ∃ b, text = Base64.encode b
    · obtain ⟨b, rfl⟩ := htext
      by_cases hb : b.length = 32
      · exact ⟨_, .key ⟨b, hb⟩⟩
      · exact ⟨_, .wrongLength b hb⟩
    · exact ⟨_, .notBase64 text (not_exists.1 htext)⟩

theorem Gives.keyOfReply_eq {name : String} {reply : Reply} {r : Except Failure Key}
    (h : Gives name reply r) : keyOfReply name reply = r := by
  cases h with
  | key key => simp only [keyOfReply, Base64.decode_encode, Key.ofBytes?, dif_pos key.property]
  | wrongLength b h =>
    have hkey : Key.ofBytes? b = none := dif_neg h
    simp only [keyOfReply, Base64.decode_encode, hkey]
  | notBase64 text h =>
    cases hd : Base64.decode text with
    | error e => simp only [keyOfReply, hd]
    | ok b => exact absurd (Base64.decode_eq_ok.1 hd) (h b)
  | notFetched cause => rfl

theorem gives_iff {name : String} {reply : Reply} {r : Except Failure Key} :
    Gives name reply r ↔ keyOfReply name reply = r := by
  constructor
  · exact Gives.keyOfReply_eq
  · rintro rfl
    obtain ⟨r, h⟩ := exists_gives name reply
    rwa [h.keyOfReply_eq]

theorem keyOfReply_eq_ok {name : String} {reply : Reply} {key : Key} :
    keyOfReply name reply = .ok key ↔ reply = .ok (Base64.encode key.val) := by
  rw [← gives_iff]
  constructor
  · intro h
    cases h
    rfl
  · rintro rfl
    exact .key key

/-- The number of the first reply for a name that has a key, counted from one. -/
noncomputable def Store.firstKey (store : Store) (name : String) : ℕ∞ :=
  open Classical in
  if h : ∃ (i : ℕ) (key : Key), store name i = .ok (Base64.encode key.val) then
    (Nat.find h + 1 : ℕ)
  else ⊤

theorem not_ok_iff_error {α ε : Type} {r : Except ε α} :
    (¬ ∃ a, r = .ok a) ↔ ∃ e, r = .error e := by
  cases r <;> simp

theorem Store.lt_firstKey {store : Store} {name : String} {m : ℕ} :
    (m : ℕ∞) < store.firstKey name ↔ ∀ i < m, ∃ e, keyOfReply name (store name i) = .error e := by
  classical
  simp only [← not_ok_iff_error, keyOfReply_eq_ok, firstKey]
  split
  · next h =>
    rw [Nat.cast_lt, Nat.lt_succ_iff]
    exact Nat.le_find_iff h m
  · next h =>
    simp only [ENat.natCast_lt_top, true_iff]
    exact fun i _ hi ↦ h ⟨i, hi⟩

theorem Store.firstKey_eq_succ {store : Store} {name : String} {k : ℕ} :
    store.firstKey name = (k + 1 : ℕ) ↔ (∃ key, keyOfReply name (store name k) = .ok key) ∧
      ∀ i < k, ∃ e, keyOfReply name (store name i) = .error e := by
  rw [← lt_firstKey]
  have hle : store.firstKey name ≤ (k + 1 : ℕ) ↔ ¬ ∀ i < k + 1, ∃ e,
      keyOfReply name (store name i) = .error e := by
    rw [← lt_firstKey, not_lt]
  constructor
  · intro h
    have hk : (k : ℕ∞) < store.firstKey name := by
      rw [h, Nat.cast_lt]
      exact Nat.lt_succ_self k
    refine ⟨by_contra fun hn ↦ hle.1 h.le fun i hi ↦ ?_, hk⟩
    rcases Nat.lt_succ_iff_lt_or_eq.1 hi with hi | rfl
    · exact lt_firstKey.1 hk i hi
    · exact not_ok_iff_error.1 hn
  · rintro ⟨hk, h⟩
    refine le_antisymm (hle.2 fun hn ↦ not_ok_iff_error.2 (hn k (Nat.lt_succ_self k)) hk) ?_
    rw [Nat.cast_add_one]
    exact Order.add_one_le_of_lt h

theorem Store.exists_succ_of_firstKey {store : Store} {name : String} {k : ℕ}
    (h : store.firstKey name = k) : ∃ j, k = j + 1 := by
  rw [firstKey] at h
  split at h
  · exact ⟨_, Nat.cast_injective h.symm⟩
  · exact absurd h (ENat.top_ne_natCast k)

/-- What the look-up of a name with a number gets, counted from zero, when no key was known. -/
def Store.answer (store : Store) (name : String) : ℕ → Except Failure Key
  | 0 => keyOfReply name (store name 0)
  | i + 1 =>
    match store.answer name i with
    | .ok key => .ok key
    | .error _ => keyOfReply name (store name (i + 1))

theorem Store.answer_congr {store other : Store} {name : String} (h : other name = store name)
    (i : ℕ) : other.answer name i = store.answer name i := by
  induction i with
  | zero => rw [answer, answer, h]
  | succ i ih => simp only [answer, ih, h]

theorem Store.answer_of_le {store : Store} {name : String} {i : ℕ}
    (h : (i : ℕ∞) < store.firstKey name) :
    store.answer name i = keyOfReply name (store name i) := by
  induction i with
  | zero => rfl
  | succ i ih =>
    have hlt : (i : ℕ∞) < store.firstKey name := lt_trans (Nat.cast_lt.2 (Nat.lt_succ_self i)) h
    obtain ⟨e, he⟩ := lt_firstKey.1 h i (Nat.lt_succ_self i)
    rw [answer, ih hlt, he]

theorem Store.answer_of_firstKey {store : Store} {name : String} {k i : ℕ}
    (hk : store.firstKey name = (k + 1 : ℕ)) (h : k ≤ i) :
    store.answer name i = keyOfReply name (store name k) := by
  induction i, h using Nat.le_induction with
  | base => exact answer_of_le (hk ▸ Nat.cast_lt.2 (Nat.lt_succ_self k))
  | succ i _ ih =>
    obtain ⟨key, hr⟩ := (firstKey_eq_succ.1 hk).1
    rw [answer, ih, hr]

end ColumnFunctions.Secret
