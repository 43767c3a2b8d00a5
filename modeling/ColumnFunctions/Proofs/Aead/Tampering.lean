import ColumnFunctions.Proofs.Aead.Field
import ColumnFunctions.Proofs.Aead.Permutation
import ColumnFunctions.Proofs.Encryption

namespace ColumnFunctions

namespace Bytes

/-- Buffers of one length that differ, though only from one place up to another. -/
structure DiffersWithin (lo hi : ℕ) (b b' : Bytes) : Prop where
  length : b'.length = b.length
  ne : b' ≠ b
  same : ∀ i, i < lo ∨ hi ≤ i → b'[i]? = b[i]?

variable {lo hi : ℕ} {a a' b b' : Bytes}

theorem DiffersWithin.lt (h : DiffersWithin lo hi b b') : lo < hi := by
  by_contra hle
  refine h.ne (List.ext_getElem? fun i ↦ h.same i ?_)
  omega

theorem DiffersWithin.mono {lo' hi' : ℕ} (h : DiffersWithin lo hi b b') (hlo : lo' ≤ lo)
    (hhi : hi ≤ hi') : DiffersWithin lo' hi' b b' :=
  ⟨h.length, h.ne, fun i hi ↦ h.same i (by omega)⟩

theorem DiffersWithin.behind (h : DiffersWithin lo hi (a ++ b) (a' ++ b'))
    (ha : a'.length = a.length) (hlo : a.length ≤ lo) :
    a' = a ∧ DiffersWithin (lo - a.length) (hi - a.length) b b' := by
  have hlt := h.lt
  have hlength := h.length
  rw [List.length_append, List.length_append, ha] at hlength
  have hfront : a' = a := by
    refine List.ext_getElem ha fun i hi' hi ↦ ?_
    have hsame := h.same i (.inl (by omega))
    rw [List.getElem?_append_left hi', List.getElem?_append_left hi, List.getElem?_eq_getElem hi',
      List.getElem?_eq_getElem hi] at hsame
    exact Option.some.inj hsame
  refine ⟨hfront, by omega, fun hb ↦ h.ne (by rw [hfront, hb]), fun i hi ↦ ?_⟩
  have hsame := h.same (a.length + i) (by omega)
  rw [List.getElem?_append_right (by omega), List.getElem?_append_right (by omega), ha,
    Nat.add_sub_cancel_left] at hsame
  exact hsame

theorem DiffersWithin.before (h : DiffersWithin lo hi (a ++ b) (a' ++ b'))
    (ha : a'.length = a.length) (hhi : hi ≤ a.length) : b' = b ∧ DiffersWithin lo hi a a' := by
  have hback : b' = b := by
    refine List.ext_getElem? fun i ↦ ?_
    have hsame := h.same (a.length + i) (.inr (by omega))
    rw [List.getElem?_append_right (by omega), List.getElem?_append_right (by omega), ha,
      Nat.add_sub_cancel_left] at hsame
    exact hsame
  refine ⟨hback, ha, fun he ↦ h.ne (by rw [hback, he]), fun i hi ↦ ?_⟩
  by_cases hlt : i < a.length
  · have hsame := h.same i hi
    rwa [List.getElem?_append_left (by omega), List.getElem?_append_left hlt] at hsame
  · rw [List.getElem?_eq_none (by omega), List.getElem?_eq_none (by omega)]

/-- A change within the first block leaves the others, if there are any. -/
theorem DiffersWithin.exists_first (h : DiffersWithin 0 16 b b') :
    ∃ old new back : Bytes, b = old ++ back ∧ b' = new ++ back ∧ new ≠ old ∧
      new.length = old.length ∧ (old.length = 16 ∨ old.length ≤ 16 ∧ back = []) := by
  by_cases h16 : 16 ≤ b.length
  · have hold : (b.take 16).length = 16 := List.length_take_of_le h16
    have hnew : (b'.take 16).length = 16 := List.length_take_of_le (h.length ▸ h16)
    rw [← List.take_append_drop 16 b, ← List.take_append_drop 16 b'] at h
    obtain ⟨hback, hblock⟩ := h.before (hnew.trans hold.symm) hold.ge
    refine ⟨b.take 16, b'.take 16, b.drop 16, ?_, ?_, hblock.ne, hblock.length, .inl hold⟩
    · rw [List.take_append_drop]
    · rw [← hback, List.take_append_drop]
  · exact ⟨b, b', [], (List.append_nil b).symm, (List.append_nil b').symm, h.ne, h.length,
      .inr ⟨by omega, rfl⟩⟩

theorem DiffersWithin.exists_block {k : ℕ} (h : DiffersWithin (16 * k) (16 * (k + 1)) b b') :
    ∃ front old new back : Bytes, b = front ++ (old ++ back) ∧ b' = front ++ (new ++ back) ∧
      front.length = 16 * k ∧ new ≠ old ∧ new.length = old.length ∧
      (old.length = 16 ∨ old.length ≤ 16 ∧ back = []) := by
  have hlength := h.length
  have hlong : 16 * k < b.length := by
    by_contra hle
    refine h.ne (List.ext_getElem? fun i ↦ ?_)
    by_cases hi : i < 16 * k
    · exact h.same i (.inl hi)
    · rw [List.getElem?_eq_none (by omega), List.getElem?_eq_none (by omega)]
  have hfront : (b.take (16 * k)).length = 16 * k := List.length_take_of_le hlong.le
  have hfront' : (b'.take (16 * k)).length = 16 * k := List.length_take_of_le (by omega)
  rw [← List.take_append_drop (16 * k) b, ← List.take_append_drop (16 * k) b'] at h
  obtain ⟨htake, hrest⟩ := h.behind (hfront'.trans hfront.symm) hfront.le
  have hplaces : 16 * (k + 1) - 16 * k = 16 := by omega
  rw [hfront, Nat.sub_self, hplaces] at hrest
  obtain ⟨old, new, back, hb, hb', hblock⟩ := hrest.exists_first
  refine ⟨b.take (16 * k), old, new, back, ?_, ?_, hfront, hblock⟩
  · rw [← hb, List.take_append_drop]
  · rw [← hb', ← htake, List.take_append_drop]

def flip (b : Bytes) (i j : ℕ) : Bytes := b.modify i (· ^^^ UInt8.ofNat (2 ^ j))

theorem differsWithin_flip {i j : ℕ} (hlt : i < b.length) (hj : j < 8) (hlo : lo ≤ i)
    (hhi : i < hi) : DiffersWithin lo hi b (b.flip i j) where
  length := List.length_modify _ _ _
  ne h := by
    have hget := congrArg (fun b : Bytes ↦ b[i]?) h
    simp only [flip, List.getElem?_modify_eq, List.getElem?_eq_getElem hlt] at hget
    have hxor : b[i] ^^^ UInt8.ofNat (2 ^ j) = b[i] := Option.some.inj hget
    have hbit : ∀ j < 8, UInt8.ofNat (2 ^ j) ≠ 0 := by decide
    refine hbit j hj ?_
    rw [← Aes.xor_left_cancel b[i] (UInt8.ofNat (2 ^ j)), hxor, UInt8.xor_self]
  same k hk := by
    have hne : i ≠ k := by omega
    exact List.getElem?_modify_ne _ _ hne

end Bytes

namespace Gcm

variable {cipher : Block → Block}

theorem firstCounter_injective : Function.Injective firstCounter := by
  intro nonce nonce' h
  have hlength : ∀ nonce : Nonce, (nonce.val ++ [0, 0, 0, 1]).length = 16 := by
    intro nonce
    rw [List.length_append, nonce.property]
    rfl
  have hbytes := Block.eq_of_ofBytes_eq ((hlength nonce).trans (hlength nonce').symm)
    (hlength nonce).le h
  exact Subtype.ext (List.append_cancel_right hbytes)

/-- A tag belongs to no other nonce. -/
theorem tag_ne_of_nonce (hc : Function.Injective cipher) {nonce nonce' : Nonce}
    (hne : nonce' ≠ nonce) (text : Bytes) : tag cipher nonce' text ≠ tag cipher nonce text := by
  intro h
  have hmask := BitVec.xor_right_inj _ |>.1 (Block.toBytes_injective h)
  exact hne (firstCounter_injective (hc hmask))

/-- Hashing keeps apart what differs, whatever comes after it. -/
theorem foldl_mul_injective {h : Block} (hh : h ≠ 0) (blocks : List Block) :
    Function.Injective fun sum ↦ blocks.foldl (fun sum x ↦ mul (sum ^^^ x) h) sum := by
  induction blocks with
  | nil => exact Function.injective_id
  | cons x blocks ih =>
    intro a b hab
    exact (BitVec.xor_left_inj x).1 (mul_injective hh (ih hab))

theorem hash_ne {h x y : Block} (hh : h ≠ 0) (hne : x ≠ y) (front back : List Block) :
    hash h (front ++ x :: back) ≠ hash h (front ++ y :: back) := by
  rw [hash, hash, List.foldl_append, List.foldl_append, List.foldl_cons, List.foldl_cons]
  exact (foldl_mul_injective hh back).ne
    ((mul_injective hh).ne ((BitVec.xor_right_inj _).not.2 hne))

/-- A tag belongs to no text that differs in one block. -/
theorem tag_ne_of_block (hsub : cipher 0 ≠ 0) (nonce : Nonce) {k : ℕ} {text text' : Bytes}
    (h : Bytes.DiffersWithin (16 * k) (16 * (k + 1)) text text') :
    tag cipher nonce text' ≠ tag cipher nonce text := by
  obtain ⟨front, old, new, back, rfl, rfl, hfront, hne, hlength, hblock⟩ := h.exists_block
  have hold : old ≠ [] := by
    rintro rfl
    exact hne (List.eq_nil_of_length_eq_zero hlength)
  have hnew : new ≠ [] := by
    rintro rfl
    exact hold (List.eq_nil_of_length_eq_zero hlength.symm)
  have h16 : new.length ≤ 16 := by omega
  have hsplit : ∀ block : Bytes, block ≠ [] → block.length = old.length →
      hashed (front ++ (block ++ back)) = Block.split front ++ Block.ofBytes block ::
        (Block.split back ++ [BitVec.ofNat 128 (8 * (front ++ (old ++ back)).length)]) := by
    intro block hb hl
    rw [hashed, Block.split_blocks hfront, Block.split_append hb (by rwa [hl]), List.append_assoc,
      List.cons_append]
    simp only [List.length_append, hl]
  intro h
  have hhash := (BitVec.xor_left_inj _).1 (Block.toBytes_injective h)
  rw [hsplit new hnew hlength, hsplit old hold rfl] at hhash
  have hbytes := fun h ↦ hne (Block.eq_of_ofBytes_eq hlength h16 h)
  exact hash_ne hsub hbytes _ _ hhash

end Gcm

namespace Aead

/-- A change of a buffer that is sealed with a key: inside the nonce, inside the tag, or inside one
block of what is between them, the last of which may be shorter. The last kind is a change under
keys whose hash key is not zero. -/
inductive Tampers (key b c : Bytes) : Prop
  | nonce (h : Bytes.DiffersWithin 0 nonceLength b c)
  | tag (h : Bytes.DiffersWithin (b.length - Gcm.tagLength) b.length b c)
  | block (k : ℕ) (hkey : Aes.encrypt key 0 ≠ 0) (h : Bytes.DiffersWithin
      (nonceLength + 16 * k)
      (min (nonceLength + 16 * (k + 1)) (b.length - Gcm.tagLength)) b c)

variable {key text b c : Bytes}

theorem exists_parts (h : Seals key text b) : ∃ (nonce : Gcm.Nonce) (body : Bytes),
    b = nonce.val ++ (body ++ Gcm.tag (Aes.encrypt key) nonce body) := by
  obtain ⟨nonce, h⟩ := h
  obtain ⟨-, -, rfl⟩ := encrypt_eq_ok.1 h
  exact ⟨nonce, _, rfl⟩

/-- A buffer that ends in anything but the tag of what is before it is refused. -/
theorem decrypt_of_tag_ne (hk : key.length = keyLength) {nonce : Gcm.Nonce} {body tag : Bytes}
    (ht : tag.length = 16) (hne : tag ≠ Gcm.tag (Aes.encrypt key) nonce body) :
    decrypt (nonce.val ++ (body ++ tag)) key = .error .rejected := by
  refine decrypt_eq_rejected.2 ⟨?_, hk, fun text h ↦ ?_⟩
  · rw [List.length_append, List.length_append, nonce.property, ht, overhead, nonceLength,
      Gcm.tagLength]
    omega
  · obtain ⟨nonce', body', hparts⟩ := exists_parts h
    obtain ⟨hnonce, hparts⟩ := List.append_inj hparts (nonce.property.trans nonce'.property.symm)
    obtain ⟨hbody, htag⟩ := List.append_inj' hparts (ht.trans (Gcm.length_tag _ _ _).symm)
    rw [Subtype.ext hnonce, hbody] at hne
    exact hne htag

theorem exists_parts_of_length {n : ℕ} (h : c.length = 12 + (n + 16)) :
    ∃ (nonce : Gcm.Nonce) (body tag : Bytes), c = nonce.val ++ (body ++ tag) ∧ body.length = n ∧
      tag.length = 16 := by
  have hnonce : (c.take 12).length = 12 := List.length_take_of_le (by omega)
  have hrest : (c.drop 12).length = n + 16 := by rw [List.length_drop]; omega
  refine ⟨⟨c.take 12, hnonce⟩, (c.drop 12).take n, (c.drop 12).drop n, ?_, ?_, ?_⟩
  · rw [List.take_append_drop, List.take_append_drop]
  · exact List.length_take_of_le (by omega)
  · rw [List.length_drop]
    omega

theorem decrypt_of_tampers (hb : Seals key text b) (h : Tampers key b c) :
    decrypt c key = .error .rejected := by
  have hk := hb.length_key
  have hcipher := Aes.encrypt_injective hk
  obtain ⟨nonce, body, rfl⟩ := exists_parts hb
  set tag := Gcm.tag (Aes.encrypt key) nonce body with htag
  have htag_length : tag.length = 16 := Gcm.length_tag _ _ _
  have hb_length : (nonce.val ++ (body ++ tag)).length = 12 + (body.length + 16) := by
    rw [List.length_append, List.length_append, nonce.property, htag_length]
  have hc_length : c.length = 12 + (body.length + 16) := by
    cases h with
    | nonce h | tag h | block _ _ h => exact h.length.trans hb_length
  obtain ⟨nonce', body', tag', rfl, hbody, htag'⟩ := exists_parts_of_length hc_length
  have hnonce : nonce'.val.length = nonce.val.length := nonce'.property.trans nonce.property.symm
  refine decrypt_of_tag_ne hk htag' ?_
  cases h with
  | nonce h =>
    obtain ⟨hrest, hdiffers⟩ := h.before hnonce nonce.property.ge
    obtain ⟨hbody, htag'⟩ := List.append_inj hrest hbody
    have hne : nonce ≠ nonce' := fun he ↦ hdiffers.ne (congrArg Subtype.val he.symm)
    rw [hbody, htag', htag]
    exact Gcm.tag_ne_of_nonce hcipher hne body
  | tag h =>
    rw [hb_length, Gcm.tagLength] at h
    obtain ⟨hsame, h⟩ := h.behind hnonce (by rw [nonce.property]; omega)
    obtain ⟨hbody, h⟩ := h.behind hbody (by rw [nonce.property]; omega)
    rw [Subtype.ext hsame, hbody]
    exact h.ne
  | block k hsub h =>
    rw [hb_length, Gcm.tagLength, nonceLength] at h
    obtain ⟨hsame, h⟩ := h.behind hnonce (by rw [nonce.property]; omega)
    obtain ⟨htag', h⟩ := h.before hbody (by rw [nonce.property]; omega)
    have hblock : Bytes.DiffersWithin (16 * k) (16 * (k + 1)) body body' :=
      h.mono (by rw [nonce.property]; omega) (by rw [nonce.property]; omega)
    rw [Subtype.ext hsame, htag']
    exact (Gcm.tag_ne_of_block hsub nonce hblock).symm

/-- A flipped bit is such a change, wherever it is. -/
theorem tampers_flip {i j : ℕ} (hi : i < b.length) (hj : j < 8)
    (hkey : Aes.encrypt key 0 ≠ 0 ∨ i < nonceLength ∨ b.length - Gcm.tagLength ≤ i) :
    Tampers key b (b.flip i j) := by
  rcases Nat.lt_or_ge i nonceLength with hnonce | hnonce
  · exact .nonce (Bytes.differsWithin_flip hi hj (Nat.zero_le i) hnonce)
  · rcases Nat.lt_or_ge i (b.length - Gcm.tagLength) with htag | htag
    · have hsub : Aes.encrypt key 0 ≠ 0 := by
        rcases hkey with hkey | hkey
        · exact hkey
        · omega
      refine .block ((i - nonceLength) / 16) hsub (Bytes.differsWithin_flip hi hj ?_ ?_) <;> omega
    · exact .tag (Bytes.differsWithin_flip hi hj htag hi)

end Aead

theorem decrypt_of_rejected {s : Surroundings} {secret : String} {state : State} {key : Key}
    {b : Bytes} (hk : (state.cache.get s.store secret).1 = .ok key)
    (hb : Aead.decrypt b key.val = .error .rejected) :
    ((decrypt s secret (some (Base64.encode b))).run.run state).1 =
      .error ⟨.decryptionFailure, "authentication tag verification failed"⟩ := by
  rw [decrypt_of_key hk, openText, Base64.decode_encode]
  simp only [hb]
  rfl

/-- A sealed buffer that was changed inside its nonce, inside its tag or inside one block of the
text, by one bit or more, is not opened, nor is its text decrypted. -/
theorem tampering_detected (nonce : Gcm.Nonce) (text key b : Bytes)
    (h : Aead.encrypt nonce text key = .ok b) :
    (∀ c, Aead.Tampers key b c → Aead.decrypt c key = .error .rejected ∧
      ∀ (s : Surroundings) (secret : String) (state : State) (k : Key), k.val = key →
        (state.cache.get s.store secret).1 = .ok k →
          ((decrypt s secret (some (Base64.encode c))).run.run state).1 =
            .error ⟨.decryptionFailure, "authentication tag verification failed"⟩) ∧
    ∀ i < b.length, ∀ j < 8, Aes.encrypt key 0 ≠ 0 ∨ i < 12 ∨ b.length - 16 ≤ i →
      Aead.Tampers key b (b.flip i j) := by
  have hb : Aead.Seals key text b := ⟨nonce, h⟩
  constructor
  · intro c hc
    have hrejected := Aead.decrypt_of_tampers hb hc
    refine ⟨hrejected, ?_⟩
    rintro s secret state k rfl hk
    exact decrypt_of_rejected hk hrejected
  · intro i hi j hj hkey
    exact Aead.tampers_flip hi hj hkey

theorem tampering_detected_bits :
    let key : Key := ⟨List.replicate 32 0, rfl⟩
    let s : Surroundings := ⟨fun _ _ ↦ .error .notFound, fun _ ↦ ⟨List.replicate 12 0, rfl⟩⟩
    let state : State := { cache := { keys := [("k", key)] } }
    ∃ b, Aead.encrypt (s.nonces 0) (Bytes.ofText "tamper me") key.val = .ok b ∧ b.length = 37 ∧
      ∀ i < 37, ∀ j < 8, Aead.decrypt (b.flip i j) key.val = .error .rejected ∧
        ((decrypt s "k" (some (Base64.encode (b.flip i j)))).run.run state).1 =
          .error ⟨.decryptionFailure, "authentication tag verification failed"⟩ := by
  intro key s state
  have hkey : Aes.encrypt key.val 0 ≠ 0 := by decide +kernel
  have htext : (Bytes.ofText "tamper me").length = 9 := by decide +kernel
  obtain ⟨b, hb⟩ : ∃ b, Aead.encrypt (s.nonces 0) (Bytes.ofText "tamper me") key.val = .ok b :=
    Aead.exists_encrypt (s.nonces 0) key.property (by rw [htext]; decide)
  have hlength : b.length = 37 := by
    rw [Aead.length_of_encrypt hb, htext]
    rfl
  refine ⟨b, hb, hlength, fun i hi j hj ↦ ?_⟩
  obtain ⟨hrejected, hflips⟩ := tampering_detected (s.nonces 0) _ key.val b hb
  obtain ⟨hopen, hdecrypt⟩ := hrejected _ (hflips i (hlength ▸ hi) j hj (.inl hkey))
  exact ⟨hopen, hdecrypt s "k" state key rfl rfl⟩

end ColumnFunctions
