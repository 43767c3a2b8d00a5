import ColumnFunctions.Proofs.Base64.Canonical
import ColumnFunctions.Proofs.Session

namespace ColumnFunctions

namespace Secret

variable {name text : String}

theorem keyOfReply_eq_wrongLength {n : ℕ} :
    keyOfReply name (.ok text) = .error (.wrongLength name n) ↔
      n ≠ 32 ∧ Base64.Canonical n text.toList := by
  rw [← gives_iff, Base64.canonical_iff]
  constructor
  · intro h
    cases h with
    | wrongLength b hb => exact ⟨hb, b, rfl, rfl⟩
  · rintro ⟨hn, b, rfl, rfl⟩
    exact .wrongLength b hn

theorem keyOfReply_eq_notBase64 :
    keyOfReply name (.ok text) = .error (.notBase64 name) ↔
      ∀ n, ¬ Base64.Canonical n text.toList := by
  simp only [← gives_iff, Base64.canonical_iff]
  constructor
  · rintro h n ⟨b, -, hb⟩
    cases h with
    | notBase64 _ hne => exact hne b hb
  · intro h
    exact .notBase64 text fun b hb ↦ h b.length ⟨b, rfl, hb⟩

namespace Cache

variable {store : Store} {c : Cache}

/-- What is got for a name that is not known is the key in the reply. -/
theorem fst_get_of_unknown (h : c.key? name = none) :
    (c.get store name).1 = keyOfReply name (store name (c.asked name)) := by
  cases hr : keyOfReply name (store name (c.asked name)) with
  | ok key => rw [get_of_ok h hr]
  | error e => rw [get_of_error h hr]

theorem keys_get_of_error {e : Failure} (h : (c.get store name).1 = .error e) :
    (c.get store name).2.keys = c.keys := by
  cases hkey : c.key? name with
  | some key => rw [get_of_key? hkey]
  | none =>
    rw [fst_get_of_unknown hkey] at h
    rw [get_of_error hkey h]

end Cache

end Secret

/-- A name that is not known gets a key just if the store has the Base64 text of 32 octets for it:
43 symbols and a sign of padding, the last symbol without bits to spare. No key has another text. A
canonical text of another length is told from one that is not canonical, and neither leaves anything
behind; under such a name every text is refused alike. -/
theorem key_text_strict (s : Surroundings) (state : State) (name text : String)
    (hkey : state.cache.key? name = none)
    (htext : s.store name (state.cache.asked name) = .ok text) :
    let get := state.cache.get s.store name
    (∀ key : Key, get.1 = .ok key ↔ text = Base64.encode key.val) ∧
    ((∃ key, get.1 = .ok key) ↔ ∃ values : List ℕ, values.length = 43 ∧ (∀ v ∈ values, v < 64) ∧
      (∀ v ∈ values.getLast?, v % 4 = 0) ∧ text.toList = values.map Base64.symbol ++ ['=']) ∧
    (∀ (s' : Surroundings) (state' : State) (name' text' : String) (key : Key),
      state'.cache.key? name' = none → s'.store name' (state'.cache.asked name') = .ok text' →
      get.1 = .ok key → (state'.cache.get s'.store name').1 = .ok key → text' = text) ∧
    (∀ n, get.1 = .error (.wrongLength name n) ↔ n ≠ 32 ∧ Base64.Canonical n text.toList) ∧
    (get.1 = .error (.notBase64 name) ↔ ∀ n, ¬ Base64.Canonical n text.toList) ∧
    (∀ n, Base64.Canonical n text.toList ↔ ∃ b : Bytes, b.length = n ∧ text = Base64.encode b) ∧
    ∀ e, get.1 = .error e →
      (e = .notBase64 name ∨ ∃ n, e = .wrongLength name n) ∧ get.2.keys = state.cache.keys ∧
      ∀ data : String,
        (encrypt s name (some data)).run.run state =
          (.error ⟨.secretUnavailable, e.message⟩, { state with cache := get.2 }) ∧
        (decrypt s name (some data)).run.run state =
          (.error ⟨.secretUnavailable, e.message⟩, { state with cache := get.2 }) := by
  intro get
  have hget : get.1 = Secret.keyOfReply name (.ok text) :=
    htext ▸ Secret.Cache.fst_get_of_unknown hkey
  have hok : ∀ key : Key, get.1 = .ok key ↔ text = Base64.encode key.val := by
    intro key
    rw [hget, Secret.keyOfReply_eq_ok, Except.ok.injEq]
  refine ⟨hok, ?_, ?_, ?_, ?_, fun n ↦ Base64.canonical_iff, ?_⟩
  · rw [← Base64.canonical_padded (k := 10), Base64.canonical_iff]
    constructor
    · rintro ⟨key, h⟩
      exact ⟨key.val, key.property, (hok key).1 h⟩
    · rintro ⟨b, hb, h⟩
      exact ⟨⟨b, hb⟩, (hok ⟨b, hb⟩).2 h⟩
  · intro s' state' name' text' key hkey' htext' h h'
    rw [Secret.Cache.fst_get_of_unknown hkey', htext', Secret.keyOfReply_eq_ok] at h'
    exact (Except.ok.inj h').trans ((hok key).1 h).symm
  · intro n
    rw [hget, Secret.keyOfReply_eq_wrongLength]
  · rw [hget, Secret.keyOfReply_eq_notBase64]
  · intro e he
    refine ⟨?_, Secret.Cache.keys_get_of_error he, fun data ↦
      ⟨run_encrypt_of_error he data, run_decrypt_of_error he data⟩⟩
    rw [hget, ← Secret.gives_iff] at he
    cases he with
    | wrongLength b => exact .inr ⟨b.length, rfl⟩
    | notBase64 => exact .inl rfl

theorem key_text_strict_refused :
    let key : Key := ⟨List.replicate 32 0x42, rfl⟩
    let s : Surroundings := ⟨fun name _ ↦ .ok <|
      if name = "k" then Base64.encode key.val
      else if name = "l" then Base64.encode key.val ++ "\n"
      else Base64.encode (List.replicate 16 0),
      fun _ ↦ ⟨List.replicate 12 0, rfl⟩⟩
    let get := fun name ↦ (Secret.Cache.get s.store name {}).1
    get "k" = .ok key ∧ get "l" = .error (.notBase64 "l") ∧
      get "m" = .error (.wrongLength "m" 16) ∧
      ((decrypt s "l" (some "?")).run.run {}).1 =
        .error ⟨.secretUnavailable, "secret l is not valid Base64"⟩ := by
  intro key s get
  obtain ⟨hk, -⟩ := key_text_strict s {} "k" _ rfl rfl
  obtain ⟨-, -, -, -, hl, -, hrefused⟩ := key_text_strict s {} "l" _ rfl rfl
  obtain ⟨-, -, -, hm, -⟩ := key_text_strict s {} "m" _ rfl rfl
  have hbreak : get "l" = .error (.notBase64 "l") := by
    refine hl.2 fun n hn ↦ ?_
    have hn : Base64.Canonical n (Base64.encode key.val ++ "\n").toList := hn
    have hlen := hn.length_mod_four
    rw [String.toList_append, List.length_append] at hlen
    have hkey := (Base64.canonical_iff.2 ⟨key.val, rfl, rfl⟩).length_mod_four
    have hone : "\n".toList.length = 1 := rfl
    omega
  refine ⟨(hk key).2 rfl, hbreak, ?_, ?_⟩
  · exact (hm 16).2 ⟨by decide, Base64.canonical_iff.2 ⟨_, rfl, rfl⟩⟩
  · obtain ⟨-, -, h⟩ := hrefused _ hbreak
    rw [(h "?").2]
    rfl

end ColumnFunctions
