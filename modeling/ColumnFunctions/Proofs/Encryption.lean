import ColumnFunctions.Encryption
import ColumnFunctions.Proofs.Aead
import ColumnFunctions.Proofs.Base64
import Mathlib.Algebra.Group.Nat.Defs

namespace ColumnFunctions

/-- Actions one after the other, the second only if the first succeeds. -/
theorem run_bind {α β : Type} (act : Action α) (next : α → Action β) (state : State) :
    (act >>= next).run.run state =
      match act.run.run state with
      | (.ok a, state) => (next a).run.run state
      | (.error e, state) => (.error e, state) := by
  change (ExceptT.bindCont next (act.run.run state).1).run (act.run.run state).2 = _
  rcases act.run.run state with ⟨_ | _, _⟩ <;> rfl

theorem run_get (state : State) : (get : Action State).run.run state = (.ok state, state) := rfl

theorem run_set (state next : State) :
    (set next : Action PUnit).run.run state = (.ok ⟨⟩, next) := rfl

theorem run_key (s : Surroundings) (name : String) (state : State) :
    (Secret.key s name).run.run state =
      ((state.cache.get s.store name).1.mapError Secret.Failure.toFailure,
        { state with cache := (state.cache.get s.store name).2 }) := by
  rw [Secret.key, run_bind, run_get]
  dsimp only
  rw [run_bind, run_set]
  dsimp only
  cases (state.cache.get s.store name).1 with
  | error e => rfl
  | ok key => rfl

theorem run_decrypt (s : Surroundings) (secret sealed : String) (state : State) :
    (decrypt s secret (some sealed)).run.run state =
      (((state.cache.get s.store secret).1.mapError Secret.Failure.toFailure).bind fun key ↦
        (openText key sealed).map some,
        { state with cache := (state.cache.get s.store secret).2 }) := by
  rw [decrypt, run_bind, run_key]
  cases (state.cache.get s.store secret).1 with
  | error e => rfl
  | ok key =>
    dsimp only [Except.mapError, Except.bind]
    cases openText key sealed <;> rfl

theorem cache_decrypt (s : Surroundings) (secret sealed : String) (state : State) :
    ((decrypt s secret (some sealed)).run.run state).2.cache =
      (state.cache.get s.store secret).2 := by
  rw [run_decrypt]

/-- Without its key no text is looked at. -/
theorem run_decrypt_of_error {s : Surroundings} {secret : String} {state : State}
    {e : Secret.Failure} (h : (state.cache.get s.store secret).1 = .error e) (sealed : String) :
    (decrypt s secret (some sealed)).run.run state =
      (.error e.toFailure, { state with cache := (state.cache.get s.store secret).2 }) := by
  rw [run_decrypt, h]
  rfl

def Encrypts (key : Key) (text encrypted : String) : Prop :=
  ∃ b, Aead.Seals key.val (Bytes.ofText text) b ∧ encrypted = Base64.encode b

theorem openText_eq_ok {key : Key} {encrypted text : String} :
    openText key encrypted = .ok text ↔ Encrypts key text encrypted := by
  constructor
  · intro h
    simp only [openText] at h
    split at h
    · cases h
    next b hb =>
    split at h
    · cases h
    next p hp =>
    split at h
    · next ht =>
      cases h
      rw [Bytes.toText?_eq_some] at ht
      exact ⟨b, ht ▸ Aead.decrypt_eq_ok.1 hp, Base64.decode_eq_ok.1 hb⟩
    · cases h
  · rintro ⟨b, hb, rfl⟩
    simp only [openText, Base64.decode_encode, Aead.decrypt_eq_ok.2 hb, Bytes.toText?_ofText]

theorem kind_of_openText {key : Key} {encrypted : String} {f : Failure}
    (h : openText key encrypted = .error f) : f.kind = .decryptionFailure := by
  simp only [openText] at h
  split at h
  · cases h; rfl
  · split at h
    · cases h; rfl
    · split at h
      · cases h
      · cases h; rfl

theorem decrypt_of_key {s : Surroundings} {secret encrypted : String} {state : State} {key : Key}
    (hk : (state.cache.get s.store secret).1 = .ok key) :
    ((decrypt s secret (some encrypted)).run.run state).1 = (openText key encrypted).map some := by
  rw [run_decrypt, hk]
  rfl

/-- Opening accepts exactly what sealing makes, and tells its reasons apart: first the length, then
the key, then the tag. Under a name whose key is known this carries over to text. -/
theorem opens_iff_sealed :
    (∀ b key text : Bytes, Aead.decrypt b key = .ok text ↔
      key.length = 32 ∧ Aead.Seals key text b) ∧
    (∀ (nonce : Gcm.Nonce) (text key : Bytes), key.length = 32 → text.length ≤ 2 ^ 36 - 32 →
      ∃ b, Aead.encrypt nonce text key = .ok b) ∧
    (∀ (nonce : Gcm.Nonce) (text key b : Bytes), Aead.encrypt nonce text key = .ok b →
      b.length = text.length + 28 ∧ ∃ body tag : Bytes, b = nonce.val ++ body ++ tag ∧
        body.length = text.length ∧ tag.length = 16) ∧
    (∀ (b key : Bytes) (n : Nat), Aead.decrypt b key = .error (.tooShort n) ↔
      b.length < 28 ∧ n = b.length) ∧
    (∀ b key : Bytes, Aead.decrypt b key = .error .invalidKeyLength ↔
      28 ≤ b.length ∧ key.length ≠ 32) ∧
    (∀ b key : Bytes, Aead.decrypt b key = .error .rejected ↔
      28 ≤ b.length ∧ key.length = 32 ∧ ∀ text, ¬ Aead.Seals key text b) ∧
    (∀ (s : Surroundings) (secret : String) (state : State) (key : Key),
      (state.cache.get s.store secret).1 = .ok key → ∀ encrypted : String,
        (∀ text, ((decrypt s secret (some encrypted)).run.run state).1 = .ok (some text) ↔
          Encrypts key text encrypted) ∧
        ((∀ text, ¬ Encrypts key text encrypted) → ∃ detail,
          ((decrypt s secret (some encrypted)).run.run state).1 =
            .error ⟨.decryptionFailure, detail⟩)) := by
  refine ⟨?_, ?_, ?_, fun b key n ↦ Aead.decrypt_eq_tooShort,
    fun b key ↦ Aead.decrypt_eq_invalidKeyLength, fun b key ↦ Aead.decrypt_eq_rejected, ?_⟩
  · intro b key text
    rw [Aead.decrypt_eq_ok]
    exact ⟨fun h ↦ ⟨h.length_key, h⟩, fun h ↦ h.2⟩
  · intro nonce text key hk ht
    exact Aead.exists_encrypt nonce hk (Nat.le_trans ht (by decide))
  · intro nonce text key b h
    refine ⟨Aead.length_of_encrypt h, ?_⟩
    obtain ⟨-, -, rfl⟩ := Aead.encrypt_eq_ok.1 h
    rw [Gcm.encrypt_eq, ← List.append_assoc]
    exact ⟨_, _, rfl, Gcm.length_addStream _ _ text, Gcm.length_tag _ nonce _⟩
  · intro s secret state key hk encrypted
    rw [decrypt_of_key hk]
    refine ⟨?_, ?_⟩
    · intro text
      rw [← openText_eq_ok]
      cases openText key encrypted <;> simp [Except.map]
    · intro hn
      cases h : openText key encrypted with
      | ok text => exact absurd (openText_eq_ok.1 h) (hn text)
      | error f =>
        obtain ⟨kind, detail⟩ := f
        obtain rfl := kind_of_openText h
        exact ⟨detail, rfl⟩

theorem not_encrypts_empty (key : Key) (text : String) : ¬ Encrypts key text "" := by
  rintro ⟨b, ⟨nonce, hb⟩, h⟩
  have hd : Base64.decode "" = .ok b := Base64.decode_eq_ok.2 h
  have hnil : Base64.decode "" = .ok [] := rfl
  obtain rfl : [] = b := by simpa [hnil] using hd
  have hlen := Aead.length_of_encrypt hb
  rw [Aead.overhead, Aead.nonceLength, List.length_nil] at hlen
  omega

theorem opens_iff_sealed_cached :
    let key : Key := ⟨List.replicate 32 0, rfl⟩
    let s : Surroundings := ⟨fun _ _ ↦ .error .notFound, fun _ ↦ ⟨List.replicate 12 0, rfl⟩⟩
    let state : State := { cache := { keys := [("k", key)] } }
    (state.cache.get s.store "k").1 = .ok key ∧
      (∃ encrypted, Encrypts key "text" encrypted ∧
        ((decrypt s "k" (some encrypted)).run.run state).1 = .ok (some "text")) ∧
      ∃ detail, ((decrypt s "k" (some "")).run.run state).1 =
        .error ⟨.decryptionFailure, detail⟩ := by
  intro key s state
  have hk : (state.cache.get s.store "k").1 = .ok key := rfl
  obtain ⟨b, hb⟩ := opens_iff_sealed.2.1 (s.nonces 0) (Bytes.ofText "text") key.val key.property
    (by decide +kernel)
  have hs : Encrypts key "text" (Base64.encode b) := ⟨b, ⟨_, hb⟩, rfl⟩
  obtain ⟨-, -, -, -, -, -, h⟩ := opens_iff_sealed
  exact ⟨hk, ⟨_, hs, ((h s "k" state key hk _).1 "text").2 hs⟩,
    (h s "k" state key hk "").2 fun text ↦ not_encrypts_empty key text⟩

end ColumnFunctions
