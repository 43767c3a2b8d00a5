import ColumnFunctions.Aead

namespace ColumnFunctions

namespace Gcm

variable (cipher : Block → Block)

theorem zipWith_xor_cancel {a k : Bytes} (h : a.length ≤ k.length) :
    List.zipWith (· ^^^ ·) (List.zipWith (· ^^^ ·) a k) k = a := by
  induction a generalizing k with
  | nil => rfl
  | cons x a ih =>
    cases k with
    | nil => simp at h
    | cons y k =>
      simp only [List.length_cons, Nat.add_le_add_iff_right] at h
      simp only [List.zipWith_cons_cons, UInt8.xor_assoc, UInt8.xor_self, UInt8.xor_zero, ih h]

theorem addStream_eq (counter : Block) (b : Bytes) :
    addStream cipher counter b =
      List.zipWith (· ^^^ ·) (b.take 16) (cipher counter).toBytes ++
        addStream cipher (increment counter) (b.drop 16) := by
  cases b with
  | nil => simp [addStream]
  | cons c rest => rw [addStream]; rfl

@[simp] theorem length_addStream (counter : Block) (b : Bytes) :
    (addStream cipher counter b).length = b.length := by
  fun_induction addStream cipher counter b with
  | case1 => rfl
  | case2 counter c rest ih =>
    simp only [List.length_append, List.length_zipWith, Block.length_toBytes, List.length_cons,
      List.length_take, ih, List.length_drop]
    omega

@[simp] theorem addStream_addStream (counter : Block) (b : Bytes) :
    addStream cipher counter (addStream cipher counter b) = b := by
  fun_induction addStream cipher counter b with
  | case1 => simp [addStream]
  | case2 counter c rest ih =>
    have hz : (List.zipWith (· ^^^ ·) (c :: rest.take 15) (cipher counter).toBytes).length =
        min 15 rest.length + 1 := by
      simp only [List.length_zipWith, Block.length_toBytes, List.length_cons, List.length_take]
      omega
    have hx := zipWith_xor_cancel (a := c :: rest.take 15) (k := (cipher counter).toBytes) (by
      simp only [List.length_cons, List.length_take, Block.length_toBytes]
      omega)
    rw [addStream_eq]
    -- A whole block leaves the others in place, and a shorter one has none after it.
    rcases Nat.le_total 15 rest.length with h | h
    · rw [Nat.min_eq_left h] at hz
      rw [List.take_left' hz, List.drop_left' hz, hx, ih, List.cons_append,
        List.take_append_drop]
    · rw [Nat.min_eq_right h] at hz
      rw [List.drop_eq_nil_of_le h] at ih ⊢
      have hnil : addStream cipher (increment counter) [] = [] := by rw [addStream]
      rw [hnil, List.append_nil, List.take_of_length_le (by omega),
        List.drop_eq_nil_of_le (by omega), hnil, List.append_nil, hx, List.take_of_length_le h]

@[simp] theorem length_tag (nonce : Nonce) (text : Bytes) : (tag cipher nonce text).length = 16 :=
  Block.length_toBytes _

theorem encrypt_eq (nonce : Nonce) (text : Bytes) :
    encrypt cipher nonce text =
      addStream cipher (increment (firstCounter nonce)) text ++
        tag cipher nonce (addStream cipher (increment (firstCounter nonce)) text) := rfl

@[simp] theorem length_encrypt (nonce : Nonce) (text : Bytes) :
    (encrypt cipher nonce text).length = text.length + tagLength := by
  rw [encrypt_eq, List.length_append, length_addStream, length_tag, tagLength]

/-- A text with a tag is the encryption of what it decrypts to, and of nothing else. -/
theorem decrypt?_eq_some {nonce : Nonce} {encrypted text : Bytes} :
    decrypt? cipher nonce encrypted = some text ↔ encrypted = encrypt cipher nonce text := by
  constructor
  · intro h
    simp only [decrypt?] at h
    split at h
    · next ht =>
      cases h
      rw [encrypt_eq, addStream_addStream, ← ht, List.take_append_drop]
    · cases h
  · rintro rfl
    have hlen : (encrypt cipher nonce text).length - tagLength =
        (addStream cipher (increment (firstCounter nonce)) text).length := by
      rw [length_encrypt, length_addStream, Nat.add_sub_cancel]
    simp only [decrypt?, hlen]
    rw [encrypt_eq, List.take_left, List.drop_left, if_pos rfl, addStream_addStream]

-- The published answer for a block of zeros under a key and a nonce of zeros.
example : decrypt? (Aes.encrypt (List.replicate 32 0)) ⟨List.replicate 12 0, rfl⟩
    [0xce, 0xa7, 0x40, 0x3d, 0x4d, 0x60, 0x6b, 0x6e, 0x07, 0x4e, 0xc5, 0xd3, 0xba, 0xf3, 0x9d, 0x18,
      0xd0, 0xd1, 0xc8, 0xa7, 0x99, 0x99, 0x6b, 0xf0, 0x26, 0x5b, 0x98, 0xb5, 0xd4, 0x8a, 0xb9,
      0x19] = some (List.replicate 16 0) := by decide +kernel

end Gcm

namespace Aead

/-- What sealing makes of a text: the nonce, as many octets as the text has, and the tag. -/
theorem encrypt_eq_ok {nonce : Gcm.Nonce} {text key b : Bytes} :
    encrypt nonce text key = .ok b ↔ key.length = keyLength ∧ text.length ≤ Gcm.maxText ∧
      b = nonce.val ++ Gcm.encrypt (Aes.encrypt key) nonce text := by
  simp only [encrypt]
  split
  · next hk => simp [hk]
  · next hk =>
    split
    · next ht => simp [Nat.not_le.2 ht]
    · next ht =>
      simp only [ne_eq, Decidable.not_not] at hk
      simp [hk, Nat.not_lt.1 ht, eq_comm]

theorem length_of_encrypt {nonce : Gcm.Nonce} {text key b : Bytes}
    (h : encrypt nonce text key = .ok b) : b.length = text.length + overhead := by
  obtain ⟨-, -, rfl⟩ := encrypt_eq_ok.1 h
  rw [List.length_append, Gcm.length_encrypt, nonce.property, overhead, nonceLength]
  omega

theorem exists_encrypt {key text : Bytes} (nonce : Gcm.Nonce) (hk : key.length = keyLength)
    (ht : text.length ≤ Gcm.maxText) : ∃ b, encrypt nonce text key = .ok b :=
  ⟨_, encrypt_eq_ok.2 ⟨hk, ht, rfl⟩⟩

/-- A buffer is a text sealed with a key under some nonce. -/
def Seals (key text b : Bytes) : Prop := ∃ nonce, encrypt nonce text key = .ok b

theorem Seals.length_key {key text b : Bytes} (h : Seals key text b) : key.length = keyLength := by
  obtain ⟨nonce, h⟩ := h
  exact (encrypt_eq_ok.1 h).1

/-- Opening is refused for its length, for its key, or for its tag, in this order. -/
theorem decrypt_cases (b key : Bytes) :
    b.length < overhead ∧ decrypt b key = .error (.tooShort b.length) ∨
      overhead ≤ b.length ∧ key.length ≠ keyLength ∧ decrypt b key = .error .invalidKeyLength ∨
      overhead ≤ b.length ∧ key.length = keyLength ∧
        ((∃ text, decrypt b key = .ok text) ∨ decrypt b key = .error .rejected) := by
  by_cases hb : b.length < overhead
  · exact .inl ⟨hb, by rw [decrypt, dif_pos hb]⟩
  · have hle := Nat.not_lt.1 hb
    by_cases hk : key.length = keyLength
    · refine .inr (.inr ⟨hle, hk, ?_⟩)
      rw [decrypt, dif_neg hb, if_neg (not_not_intro hk)]
      split
      · exact .inr rfl
      · dsimp only
        split
        · next text _ => exact .inl ⟨text, rfl⟩
        · exact .inr rfl
    · exact .inr (.inl ⟨hle, hk, by rw [decrypt, dif_neg hb, if_pos hk]⟩)

/-- A buffer opens to a text exactly when the text was sealed to it under some nonce. -/
theorem decrypt_eq_ok {b key text : Bytes} :
    decrypt b key = .ok text ↔ Seals key text b := by
  constructor
  · intro h
    simp only [decrypt] at h
    split at h
    · cases h
    next hb =>
    split at h
    · cases h
    next hk =>
    split at h
    · cases h
    next hm =>
    split at h
    · next hd =>
      cases h
      have he := (Gcm.decrypt?_eq_some _).1 hd
      have hlen := congrArg List.length he
      rw [List.length_drop, Gcm.length_encrypt, nonceLength] at hlen
      simp only [overhead, nonceLength] at hb hm
      -- The buffer was sealed under the nonce that it begins with.
      have hn : (b.take nonceLength).length = 12 := by
        rw [List.length_take, nonceLength]
        omega
      refine ⟨⟨b.take nonceLength, hn⟩, encrypt_eq_ok.2 ⟨Decidable.of_not_not hk, by omega, ?_⟩⟩
      rw [← he, List.take_append_drop]
    · cases h
  · rintro ⟨nonce, h⟩
    have hlen := length_of_encrypt h
    obtain ⟨hk, ht, rfl⟩ := encrypt_eq_ok.1 h
    have htake : (nonce.val ++ Gcm.encrypt (Aes.encrypt key) nonce text).take nonceLength =
        nonce.val := List.take_left' nonce.property
    have hdrop : (nonce.val ++ Gcm.encrypt (Aes.encrypt key) nonce text).drop nonceLength =
        Gcm.encrypt (Aes.encrypt key) nonce text := List.drop_left' nonce.property
    simp only [decrypt, htake, hdrop]
    rw [dif_neg (by omega), if_neg (not_not_intro hk), if_neg (by omega),
      (Gcm.decrypt?_eq_some _).2 rfl]

theorem decrypt_eq_tooShort {b key : Bytes} {n : Nat} :
    decrypt b key = .error (.tooShort n) ↔ b.length < overhead ∧ n = b.length := by
  rcases decrypt_cases b key with ⟨hb, h⟩ | ⟨hb, hk, h⟩ | ⟨hb, hk, ⟨text, h⟩ | h⟩
  all_goals simp [Nat.not_lt.2, eq_comm, *]

theorem decrypt_eq_invalidKeyLength {b key : Bytes} :
    decrypt b key = .error .invalidKeyLength ↔ overhead ≤ b.length ∧ key.length ≠ keyLength := by
  rcases decrypt_cases b key with ⟨hb, h⟩ | ⟨hb, hk, h⟩ | ⟨hb, hk, ⟨text, h⟩ | h⟩
  all_goals simp [Nat.not_le.2, *]

theorem decrypt_eq_rejected {b key : Bytes} :
    decrypt b key = .error .rejected ↔ overhead ≤ b.length ∧ key.length = keyLength ∧
      ∀ text, ¬ Seals key text b := by
  simp only [← decrypt_eq_ok]
  rcases decrypt_cases b key with ⟨hb, h⟩ | ⟨hb, hk, h⟩ | ⟨hb, hk, ⟨text, h⟩ | h⟩
  all_goals simp [Nat.not_le.2, *]

end Aead

end ColumnFunctions
