import ColumnFunctions.Proofs.KeyText
import Mathlib.Data.List.Forall2

namespace ColumnFunctions

namespace Secret

inductive Reply.Alike : Reply → Reply → Prop
  | failed (cause : StoreFailure) : Alike (.error cause) (.error cause)
  | refused {text text' : String} {e e' : Base64.Error} (h : Base64.decode text = .error e)
      (h' : Base64.decode text' = .error e') : Alike (.ok text) (.ok text')
  | decoded {text text' : String} {b b' : Bytes} (h : Base64.decode text = .ok b)
      (h' : Base64.decode text' = .ok b') (hlen : b.length = b'.length) :
      Alike (.ok text) (.ok text')

variable {ε α β : Type}

/-- Attempts that fail with the same failure, or both succeed. -/
def FailAlike (x : Except ε α) (y : Except ε β) : Prop := ∀ e, x = .error e ↔ y = .error e

theorem failAlike_error (e : ε) : FailAlike (.error e : Except ε α) (.error e : Except ε β) := by
  intro e'
  constructor
  · intro h
    cases h
    rfl
  · intro h
    cases h
    rfl

theorem failAlike_ok (a : α) (b : β) : FailAlike (.ok a : Except ε α) (.ok b) :=
  fun _ ↦ ⟨nofun, nofun⟩

theorem FailAlike.cases {x : Except ε α} {y : Except ε β} (h : FailAlike x y) :
    (∃ a b, x = .ok a ∧ y = .ok b) ∨ ∃ e, x = .error e ∧ y = .error e := by
  cases x with
  | error e => exact .inr ⟨e, rfl, (h e).1 rfl⟩
  | ok a =>
    cases y with
    | error e => cases (h e).2 rfl
    | ok b => exact .inl ⟨a, b, rfl, rfl⟩

theorem Reply.Alike.failAlike {r r' : Reply} (h : Alike r r') (name : String) :
    FailAlike (keyOfReply name r) (keyOfReply name r') := by
  cases h with
  | failed cause => exact failAlike_error _
  | refused h h' =>
    simp only [keyOfReply, h, h']
    exact failAlike_error _
  | @decoded text text' b b' h h' hlen =>
    simp only [keyOfReply, h, h']
    by_cases hb : b.length = Aead.keyLength
    · have hb' : b'.length = Aead.keyLength := hlen ▸ hb
      simp only [Key.ofBytes?, dif_pos hb, dif_pos hb']
      exact failAlike_ok _ _
    · have hb' : ¬ b'.length = Aead.keyLength := hlen ▸ hb
      simp only [Key.ofBytes?, hlen, dif_neg hb']
      exact failAlike_error _

structure Cache.Alike (c c' : Cache) : Prop where
  names : c.keys.map Prod.fst = c'.keys.map Prod.fst
  requests : c.requests = c'.requests

namespace Cache.Alike

variable {c c' : Cache}

theorem size (h : Alike c c') : c.size = c'.size := by
  have hlen := congrArg List.length h.names
  rwa [List.length_map, List.length_map] at hlen

theorem asked (h : Alike c c') (name : String) : c.asked name = c'.asked name := by
  rw [Cache.asked, Cache.asked, h.requests]

theorem exists_key? (h : Alike c c') (name : String) :
    (∃ key, c.key? name = some key) ↔ ∃ key, c'.key? name = some key := by
  rw [← mem_names_iff, ← mem_names_iff, h.names]

theorem get (h : Alike c c') {store store' : Store}
    (hs : ∀ name i, Reply.Alike (store name i) (store' name i)) (name : String) :
    FailAlike (c.get store name).1 (c'.get store' name).1 ∧
      Alike (c.get store name).2 (c'.get store' name).2 := by
  have hkeys := h.exists_key? name
  cases hkey : c.key? name with
  | some key =>
    obtain ⟨key', hkey'⟩ := hkeys.1 ⟨key, hkey⟩
    rw [get_of_key? hkey, get_of_key? hkey']
    exact ⟨failAlike_ok _ _, h⟩
  | none =>
    have hkey' : c'.key? name = none := by
      rw [Option.eq_none_iff_forall_ne_some]
      intro key' hkey'
      obtain ⟨key, hsome⟩ := hkeys.2 ⟨key', hkey'⟩
      cases hkey.symm.trans hsome
    have hrequests : c.requests ++ [name] = c'.requests ++ [name] := by rw [h.requests]
    rcases ((hs name (c.asked name)).failAlike name).cases with ⟨key, key', hr, hr'⟩ | ⟨e, hr, hr'⟩
    · rw [h.asked] at hr'
      rw [get_of_ok hkey hr, get_of_ok hkey' hr']
      refine ⟨failAlike_ok _ _, ?_, hrequests⟩
      rw [List.map_append, List.map_append, h.names]
      rfl
    · rw [h.asked] at hr'
      rw [get_of_error hkey hr, get_of_error hkey' hr']
      exact ⟨failAlike_error _, h.names, hrequests⟩

end Cache.Alike

end Secret

open Secret

inductive Request.Alike : Request → Request → Prop
  | get (name : String) : Alike (.get name) (.get name)
  | encrypt (secret : String) (data : Option String) :
      Alike (.encrypt secret data) (.encrypt secret data)
  | decrypt (secret : String) {data data' : Option String} (h : data.isSome = data'.isSome) :
      Alike (.decrypt secret data) (.decrypt secret data')

section Sessions

variable {s s' : Surroundings} {state state' : State}

/-- What a request does to the keys does not depend on them. -/
theorem Request.Alike.after {r r' : Request} (h : r.Alike r')
    (hs : ∀ name i, Reply.Alike (s.store name i) (s'.store name i))
    (hc : Cache.Alike state.cache state'.cache) :
    Cache.Alike (r.after s state).cache (r'.after s' state').cache := by
  cases h with
  | get name => exact (hc.get hs name).2
  | encrypt secret data =>
    cases data with
    | none => exact hc
    | some text =>
      rw [Request.after, Request.after, cache_encrypt, cache_encrypt]
      exact (hc.get hs secret).2
  | @decrypt secret data data' h =>
    cases data with
    | none =>
      obtain rfl : data' = none := by simpa using h.symm
      exact hc
    | some text =>
      obtain ⟨text', rfl⟩ := Option.isSome_iff_exists.1 h.symm
      rw [Request.after, Request.after, cache_decrypt, cache_decrypt]
      exact (hc.get hs secret).2

theorem alike_session {requests requests' : List Request}
    (h : List.Forall₂ Request.Alike requests requests')
    (hs : ∀ name i, Reply.Alike (s.store name i) (s'.store name i))
    (hc : Cache.Alike state.cache state'.cache) :
    Cache.Alike (session s requests state).cache (session s' requests' state').cache := by
  induction h generalizing state state' with
  | nil => exact hc
  | cons h _ ih => exact ih (h.after hs hc)

/-- Whether a text is too long to be sealed does not depend on the key. -/
theorem failAlike_sealText (nonce nonce' : Gcm.Nonce) (key key' : Key) (text : String) :
    FailAlike (sealText nonce key text) (sealText nonce' key' text) := by
  have hkey := key.property
  have hkey' := key'.property
  simp only [sealText, Aead.encrypt, hkey, hkey', ne_eq, not_true_eq_false, if_false]
  by_cases hlen : Gcm.maxText < (Bytes.ofText text).length
  · simp only [if_pos hlen]
    exact failAlike_error _
  · simp only [if_neg hlen]
    exact failAlike_ok _ _

end Sessions

/-- A text is authentic under a key: it was sealed with the key, whatever it was sealed from. -/
def Authentic (key : Key) (encrypted : String) : Prop :=
  ∃ b text, Base64.decode encrypted = .ok b ∧ Aead.Seals key.val text b

def refusal (encrypted : String) : Failure :=
  match Base64.decode encrypted with
  | .error e => ⟨.decryptionFailure, "invalid Base64: " ++ e.message⟩
  | .ok b =>
    if b.length < Aead.overhead then ⟨.decryptionFailure, (Aead.Failure.tooShort b.length).message⟩
    else ⟨.decryptionFailure, "authentication tag verification failed"⟩

section Opening

variable {key : Key} {encrypted : String}

theorem Authentic.failure_eq (h : Authentic key encrypted) {f : Failure}
    (hf : openText key encrypted = .error f) :
    f = ⟨.decryptionFailure, "plaintext is not valid UTF-8"⟩ := by
  obtain ⟨b, text, hb, hs⟩ := h
  simp only [openText, hb, Aead.decrypt_eq_ok.2 hs] at hf
  split at hf
  · cases hf
  · cases hf
    rfl

theorem openText_of_not_authentic (h : ¬ Authentic key encrypted) :
    openText key encrypted = .error (refusal encrypted) := by
  rw [openText, refusal]
  cases hb : Base64.decode encrypted with
  | error e => rfl
  | ok b =>
    dsimp only
    rcases Aead.decrypt_cases b key.val with
      ⟨hlt, hd⟩ | ⟨-, hk, -⟩ | ⟨hle, -, ⟨text, hd⟩ | hd⟩
    · rw [hd, if_pos hlt]
      rfl
    · exact absurd key.property hk
    · exact absurd ⟨b, text, hb, Aead.decrypt_eq_ok.1 hd⟩ h
    · rw [hd, if_neg (Nat.not_lt.2 hle)]
      rfl

/-- A text that is authentic under one key is refused under another for its tag alone. -/
theorem Authentic.refusal_eq (h : Authentic key encrypted) :
    refusal encrypted = ⟨.decryptionFailure, "authentication tag verification failed"⟩ := by
  obtain ⟨b, text, hb, nonce, hs⟩ := h
  have hlen := Aead.length_of_encrypt hs
  rw [refusal, hb]
  exact if_neg (by omega)

end Opening

section Outcomes

variable {s s' : Surroundings} {state state' : State} {secret encrypted detail : String}

theorem decrypt_eq_unavailable :
    ((decrypt s secret (some encrypted)).run.run state).1 =
        .error ⟨.secretUnavailable, detail⟩ ↔
      ∃ e : Secret.Failure, (state.cache.get s.store secret).1 = .error e ∧
        e.message = detail := by
  rw [run_decrypt]
  cases (state.cache.get s.store secret).1 with
  | error e => simp [Except.mapError, Except.bind, Failure.toFailure]
  | ok key =>
    simp only [Except.mapError, Except.bind]
    cases ho : openText key encrypted with
    | ok text => simp [Except.map]
    | error f =>
      have hkind := kind_of_openText ho
      constructor
      · intro h
        cases h
        cases hkind
      · rintro ⟨e, h, -⟩
        cases h

theorem decrypt_eq_failure :
    ((decrypt s secret (some encrypted)).run.run state).1 =
        .error ⟨.decryptionFailure, detail⟩ ↔
      ∃ key, (state.cache.get s.store secret).1 = .ok key ∧
        openText key encrypted = .error ⟨.decryptionFailure, detail⟩ := by
  rw [run_decrypt]
  cases (state.cache.get s.store secret).1 with
  | error e => simp [Except.mapError, Except.bind, Failure.toFailure]
  | ok key =>
    simp only [Except.mapError, Except.bind]
    cases ho : openText key encrypted <;> simp [Except.map, ho]

theorem fst_run_encrypt (s : Surroundings) (secret text : String) (state : State) :
    ((encrypt s secret (some text)).run.run state).1 =
      ((state.cache.get s.store secret).1.mapError Secret.Failure.toFailure).bind fun key ↦
        (sealText (s.nonces state.drawn) key text).map some := by
  rw [run_encrypt]
  rcases state.cache.get s.store secret with ⟨_ | _, _⟩ <;> rfl

theorem failAlike_encrypt {text : String}
    (h : FailAlike (state.cache.get s.store secret).1 (state'.cache.get s'.store secret).1) :
    FailAlike ((encrypt s secret (some text)).run.run state).1
      ((encrypt s' secret (some text)).run.run state').1 := by
  rw [fst_run_encrypt, fst_run_encrypt]
  rcases h.cases with ⟨key, key', hkey, hkey'⟩ | ⟨e, he, he'⟩
  · rw [hkey, hkey']
    simp only [Except.mapError, Except.bind]
    have hseal := failAlike_sealText (s.nonces state.drawn) (s'.nonces state'.drawn) key key' text
    rcases hseal.cases with ⟨b, b', hb, hb'⟩ | ⟨e, hb, hb'⟩
    · rw [hb, hb']
      exact failAlike_ok _ _
    · rw [hb, hb']
      exact failAlike_error _
  · rw [he, he']
    exact failAlike_error _

end Outcomes

/-- Sessions with two stores whose texts differ in their content alone: the store is asked for the
same names and as many keys are known, look-ups and encryptions fail with the same failure, and a
decryption is refused for its secret in both or in neither. Nor do the failures of a text that is to
be decrypted differ, unless it was sealed with the one key and not with the other. -/
theorem failures_hide_keys (s s' : Surroundings)
    (hs : ∀ name i, Reply.Alike (s.store name i) (s'.store name i))
    (requests requests' : List Request) (h : List.Forall₂ Request.Alike requests requests') :
    let state := session s requests {}
    let state' := session s' requests' {}
    state.cache.requests = state'.cache.requests ∧ state.cache.size = state'.cache.size ∧
    (∀ name e, (state.cache.get s.store name).1 = .error e ↔
      (state'.cache.get s'.store name).1 = .error e) ∧
    (∀ secret data e, ((encrypt s secret data).run.run state).1 = .error e ↔
      ((encrypt s' secret data).run.run state').1 = .error e) ∧
    (∀ secret data data' detail, data.isSome = data'.isSome →
      (((decrypt s secret data).run.run state).1 = .error ⟨.secretUnavailable, detail⟩ ↔
        ((decrypt s' secret data').run.run state').1 = .error ⟨.secretUnavailable, detail⟩)) ∧
    ∀ secret encrypted detail detail',
      ((decrypt s secret (some encrypted)).run.run state).1 =
        .error ⟨.decryptionFailure, detail⟩ →
      ((decrypt s' secret (some encrypted)).run.run state').1 =
        .error ⟨.decryptionFailure, detail'⟩ →
      ∃ key key', (state.cache.get s.store secret).1 = .ok key ∧
        (state'.cache.get s'.store secret).1 = .ok key' ∧
        ((Authentic key encrypted ↔ Authentic key' encrypted) ∧ detail = detail' ∨
          Authentic key encrypted ∧ ¬ Authentic key' encrypted ∧
            detail = "plaintext is not valid UTF-8" ∧
            detail' = "authentication tag verification failed" ∨
          ¬ Authentic key encrypted ∧ Authentic key' encrypted ∧
            detail = "authentication tag verification failed" ∧
            detail' = "plaintext is not valid UTF-8") := by
  intro state state'
  have hc : Cache.Alike state.cache state'.cache := alike_session h hs ⟨rfl, rfl⟩
  have hget := fun name ↦ (hc.get hs name).1
  refine ⟨hc.requests, hc.size, hget, ?_, ?_, ?_⟩
  · intro secret data
    cases data with
    | none => exact failAlike_ok _ _
    | some text => exact failAlike_encrypt (hget secret)
  · intro secret data data' detail hdata
    cases data with
    | none =>
      obtain rfl : data' = none := by simpa using hdata.symm
      exact failAlike_ok _ _ _
    | some text =>
      obtain ⟨text', rfl⟩ := Option.isSome_iff_exists.1 hdata.symm
      rw [decrypt_eq_unavailable, decrypt_eq_unavailable]
      exact exists_congr fun e ↦ and_congr_left fun _ ↦ hget secret e
  · intro secret encrypted detail detail' hd hd'
    obtain ⟨key, hkey, ho⟩ := decrypt_eq_failure.1 hd
    obtain ⟨key', hkey', ho'⟩ := decrypt_eq_failure.1 hd'
    refine ⟨key, key', hkey, hkey', ?_⟩
    by_cases ha : Authentic key encrypted
    · have hfailure := ha.failure_eq ho
      by_cases ha' : Authentic key' encrypted
      · cases hfailure
        cases ha'.failure_eq ho'
        exact .inl ⟨iff_of_true ha ha', rfl⟩
      · rw [openText_of_not_authentic ha', ha.refusal_eq] at ho'
        cases hfailure
        cases ho'
        exact .inr (.inl ⟨ha, ha', rfl, rfl⟩)
    · rw [openText_of_not_authentic ha] at ho
      by_cases ha' : Authentic key' encrypted
      · rw [ha'.refusal_eq] at ho
        cases ho
        cases ha'.failure_eq ho'
        exact .inr (.inr ⟨ha, ha', rfl, rfl⟩)
      · rw [openText_of_not_authentic ha', Except.error.inj ho] at ho'
        cases ho'
        exact .inl ⟨iff_of_false ha ha', rfl⟩

theorem failures_hide_keys_short :
    let surroundings := fun (octet : UInt8) (other : String) ↦
      (⟨fun name _ ↦ .ok (if name = "k" then Base64.encode (List.replicate 32 octet) else other),
        fun _ ↦ ⟨List.replicate 12 octet, rfl⟩⟩ : Surroundings)
    let s := surroundings 0x42 "?"
    let s' := surroundings 0x43 "a key"
    let requests : List Request := [.encrypt "k" (some "text"), .get "l"]
    let short := Base64.encode [1, 2, 3]
    (∀ name i, Reply.Alike (s.store name i) (s'.store name i)) ∧
      List.Forall₂ Request.Alike requests requests ∧
      (session s requests {}).cache.size = (session s' requests {}).cache.size ∧
      ((session s' requests {}).cache.get s'.store "l").1 = .error (.notBase64 "l") ∧
      ∀ detail detail',
        ((decrypt s "k" (some short)).run.run (session s requests {})).1 =
          .error ⟨.decryptionFailure, detail⟩ →
        ((decrypt s' "k" (some short)).run.run (session s' requests {})).1 =
          .error ⟨.decryptionFailure, detail'⟩ → detail = detail' := by
  intro surroundings s s' requests short
  have hstores : ∀ name i, Reply.Alike (s.store name i) (s'.store name i) := by
    intro name i
    by_cases hname : name = "k"
    · subst hname
      exact .decoded (Base64.decode_encode _) (Base64.decode_encode _) rfl
    · have hreply : s.store name i = .ok "?" := by simp [s, surroundings, hname]
      have hreply' : s'.store name i = .ok "a key" := by simp [s', surroundings, hname]
      rw [hreply, hreply']
      have he : Base64.decode "?" = .error (.invalidSymbol 63 0) := by decide +kernel
      have he' : Base64.decode "a key" = .error (.invalidSymbol 32 1) := by decide +kernel
      exact .refused he he'
  have hrequests : List.Forall₂ Request.Alike requests requests :=
    .cons (.encrypt "k" _) (.cons (.get "l") .nil)
  obtain ⟨-, hsize, hget, -, -, hopen⟩ :=
    failures_hide_keys s s' hstores requests requests hrequests
  have hshort : ∀ key, ¬ Authentic key short := by
    rintro key ⟨b, text, hb, nonce, hseal⟩
    rw [Base64.decode_encode] at hb
    cases hb
    have hlen := Aead.length_of_encrypt hseal
    rw [Aead.overhead, Aead.nonceLength] at hlen
    simp only [List.length_cons, List.length_nil] at hlen
    omega
  have hk : Cache.get s.store "k" {} = (.ok ⟨List.replicate 32 0x42, rfl⟩, _) :=
    Cache.get_of_ok rfl (keyOfReply_eq_ok.2 rfl)
  have hl : keyOfReply "l" (.ok "?") = .error (.notBase64 "l") := by
    have he : Base64.decode "?" = .error (.invalidSymbol 63 0) := by decide +kernel
    simp only [keyOfReply, he]
  have hcache : (session s requests {}).cache =
      ((Cache.get s.store "k" {}).2.get s.store "l").2 := by
    rw [← cache_encrypt s "k" "text" {}]
    rfl
  refine ⟨hstores, hrequests, hsize, (hget "l" _).1 ?_, ?_⟩
  · rw [hcache, hk, Cache.get_of_error rfl hl, Cache.get_of_error rfl hl]
  · intro detail detail' hd hd'
    obtain ⟨key, key', -, -, ⟨-, h⟩ | ⟨h, -⟩ | ⟨-, h, -⟩⟩ := hopen "k" short detail detail' hd hd'
    · exact h
    · exact absurd h (hshort key)
    · exact absurd h (hshort key')

end ColumnFunctions
