import ColumnFunctions.Proofs.Compression.Framing
import Mathlib.Logic.ExistsUnique

namespace ColumnFunctions

open Deflate

/-- The text of octets that are said to be a framed stream or a bare one. A header is objected to as
soon as all of it is there. -/
def inflateStream (framed : Bool) (b : Bytes) : Except Failure Bytes :=
  let text :=
    if framed then
      if b.length < 2 then .error .truncated
      else if Zlib.hasHeader b then Zlib.decompress b
      else .error .corrupt
    else inflateBare b
  text.mapError fun e ↦ .malformed e.detail

/-- The first `n` octets are a stream, and no fewer are. -/
structure EndsAt (framed : Bool) (b text : Bytes) (n : ℕ) : Prop where
  le : n ≤ b.length
  accepts : ∀ b', b.take n <+: b' → inflateStream framed b' = .ok text
  truncated : ∀ m < n, inflateStream framed (b.take m) =
    .error ⟨.malformedCompressedData, "input is truncated"⟩

variable {framed : Bool} {b b' text text' : Bytes} {n n' : ℕ}

theorem inflateStream_bare (b : Bytes) :
    inflateStream false b = (inflateBare b).mapError fun e ↦ .malformed e.detail := rfl

theorem inflateStream_short (h : b.length < 2) : inflateStream true b =
    .error ⟨.malformedCompressedData, "input is truncated"⟩ := by
  rw [inflateStream, if_pos rfl, if_pos h]
  rfl

theorem inflateStream_framed (h : Zlib.hasHeader b) :
    inflateStream true b = (Zlib.decompress b).mapError fun e ↦ .malformed e.detail := by
  have hlen : ¬ b.length < 2 := by
    match b with
    | [] | [_] => cases h
    | _ :: _ :: _ => simp
  rw [inflateStream, if_pos rfl, if_neg hlen, if_pos h]

theorem EndsAt.of_stream {stream : Bytes}
    (haccepts : ∀ more, inflateStream framed (stream ++ more) = .ok text)
    (hcut : ∀ p more, p ++ more = stream → more ≠ [] →
      inflateStream framed p = .error ⟨.malformedCompressedData, "input is truncated"⟩)
    (rest : Bytes) : EndsAt framed (stream ++ rest) text stream.length := by
  refine ⟨?_, ?_, ?_⟩
  · rw [List.length_append]
    exact Nat.le_add_right _ _
  · rw [List.take_left]
    rintro b' ⟨more, rfl⟩
    exact haccepts more
  · intro m hm
    rw [List.take_append_of_le_length (Nat.le_of_lt hm)]
    refine hcut _ (stream.drop m) (List.take_append_drop m stream) ?_
    rwa [ne_eq, List.drop_eq_nil_iff, Nat.not_le]

theorem exists_endsAt_bare (h : inflateStream false b = .ok text) :
    ∃ n, EndsAt false b text n := by
  rw [inflateStream_bare, mapError_eq_ok, inflateBare] at h
  cases hi : inflate b with
  | error e =>
    rw [hi] at h
    cases h
  | ok r =>
    obtain ⟨text', rest⟩ := r
    rw [hi] at h
    cases h
    obtain ⟨stream, rfl, hs⟩ := exists_of_inflate hi
    refine ⟨_, .of_stream (fun more ↦ ?_) (fun p more hp hm ↦ ?_) rest⟩
    · rw [inflateStream_bare, inflateBare, inflate_append hs]
      rfl
    · subst hp
      rw [inflateStream_bare, inflateBare, inflate_of_cut hs (List.length_pos_iff.2 hm)]
      rfl

/-- A framed stream is a header, a bare stream and the checksum of its text. -/
theorem exists_framed (h : inflateStream true b = .ok text) :
    ∃ method flags stream checksum rest, b = method :: flags :: (stream ++ checksum ++ rest) ∧
      Zlib.hasHeader b ∧ inflate stream = .ok (text, []) ∧
      checksum = Bytes.bigEndian 4 (Adler32.ofBytes text) := by
  have hheader : Zlib.hasHeader b := by
    cases hb : Zlib.hasHeader b with
    | true => rfl
    | false =>
      rw [inflateStream, if_pos rfl, hb, if_neg Bool.false_ne_true] at h
      split at h <;> cases h
  rw [inflateStream_framed hheader, mapError_eq_ok, Zlib.decompress] at h
  obtain ⟨method, flags, b, rfl⟩ := Zlib.exists_cons_of_hasHeader hheader
  rw [List.drop_succ_cons, List.drop_succ_cons, List.drop_zero] at h
  cases hi : inflate b with
  | error e =>
    rw [hi] at h
    cases h
  | ok r =>
    obtain ⟨text', rest⟩ := r
    rw [hi] at h
    dsimp only at h
    split at h
    · cases h
    split at h
    · next hchecksum =>
      cases h
      obtain ⟨stream, rfl, hs⟩ := exists_of_inflate hi
      refine ⟨method, flags, stream, rest.take 4, rest.drop 4, ?_, hheader, hs, hchecksum⟩
      rw [List.append_assoc, List.take_append_drop]
    · cases h

theorem exists_endsAt_framed (h : inflateStream true b = .ok text) :
    ∃ n, EndsAt true b text n := by
  obtain ⟨method, flags, stream, checksum, rest, rfl, hheader, hs, hchecksum⟩ := exists_framed h
  have hlen : checksum.length = 4 := by rw [hchecksum, Bytes.length_bigEndian]
  -- The header is the same whatever follows it.
  have hframed : ∀ p, inflateStream true (method :: flags :: p) =
      (Zlib.decompress (method :: flags :: p)).mapError fun e ↦ .malformed e.detail :=
    fun p ↦ inflateStream_framed hheader
  refine ⟨(method :: flags :: (stream ++ checksum)).length, ?_⟩
  rw [← List.cons_append, ← List.cons_append]
  refine .of_stream (fun more ↦ ?_) (fun p more hp hm ↦ ?_) rest
  · have hi : inflate ((method :: flags :: (stream ++ checksum ++ more)).drop 2) =
        .ok (text, checksum ++ more) := by
      rw [List.append_assoc]
      exact inflate_append hs (checksum ++ more)
    rw [List.cons_append, List.cons_append, hframed, Zlib.decompress_of_checksum hi hlen,
      if_pos hchecksum]
    rfl
  · match p with
    | [] | [_] => exact inflateStream_short (by simp)
    | method' :: flags' :: p =>
      obtain ⟨rfl, hp'⟩ := List.cons.inj hp
      obtain ⟨rfl, hq⟩ := List.cons.inj hp'
      have hi : inflate ((method' :: flags' :: p ++ more).drop 2) = .ok (text, checksum) := by
        have hdrop : (method' :: flags' :: p ++ more).drop 2 = stream ++ checksum := hq
        rw [hdrop]
        exact inflate_append hs checksum
      have hpos := List.length_pos_iff.2 hm
      rw [hframed, Zlib.decompress_of_cut hi (by omega)]
      rfl

theorem EndsAt.accepts_take {m : ℕ} (h : EndsAt framed b text n) (hm : n ≤ m) :
    inflateStream framed (b.take m) = .ok text :=
  h.accepts _ (List.take_prefix_take_left hm)

theorem EndsAt.le_of_ok {m : ℕ} (h : EndsAt framed b text n)
    (hok : inflateStream framed (b.take m) = .ok text') : n ≤ m := by
  refine Nat.le_of_not_lt fun hlt ↦ ?_
  rw [h.truncated m hlt] at hok
  cases hok

/-- No stream begins with another one. -/
theorem EndsAt.eq_of_prefix (h : EndsAt framed b text n) (h' : EndsAt framed b' text' n')
    (hp : b.take n <+: b'.take n') : n = n' ∧ text = text' := by
  have hle : n ≤ n' := by
    have := hp.length_le
    rwa [List.length_take_of_le h.le, List.length_take_of_le h'.le] at this
  have htake : b.take n = b'.take n := by
    have := List.prefix_iff_eq_take.1 hp
    rwa [List.length_take_of_le h.le, List.take_take, Nat.min_eq_left hle] at this
  have hok : inflateStream framed (b'.take n) = .ok text := htake ▸ h.accepts_take (Nat.le_refl n)
  obtain rfl : n = n' := Nat.le_antisymm hle (h'.le_of_ok hok)
  rw [h'.accepts_take (Nat.le_refl n)] at hok
  exact ⟨rfl, (Except.ok.inj hok).symm⟩

/-- What is read as a stream, framed or bare, has exactly one end: with fewer octets it is
truncated, and whatever follows is ignored. So no stream begins with another one. Text is
decompressed by reading it as a framed stream if it has the header, and else, or if that fails, as a
bare one. -/
theorem stream_ends_once :
    (∀ framed b text, inflateStream framed b = .ok text → ∃! n, EndsAt framed b text n) ∧
    (∀ framed b b' text text' n n', EndsAt framed b text n → EndsAt framed b' text' n' →
      b.take n <+: b'.take n' → b.take n = b'.take n' ∧ text = text') ∧
    ∀ s b, Base64.decode s = .ok b → decompress (some s) =
      (if Zlib.hasHeader b then
        match inflateStream true b with
        | .ok text => .ok text
        | .error e => (inflateStream false b).mapError fun _ ↦ e
      else inflateStream false b) >>= fun text ↦
        match Bytes.toText? text with
        | some t => .ok (some t)
        | none => .error ⟨.malformedCompressedData, "decompressed bytes are not valid UTF-8"⟩ := by
  refine ⟨?_, ?_, ?_⟩
  · intro framed b text h
    obtain ⟨n, hn⟩ : ∃ n, EndsAt framed b text n := by
      cases framed with
      | false => exact exists_endsAt_bare h
      | true => exact exists_endsAt_framed h
    refine ⟨n, hn, fun m hm ↦ ?_⟩
    rcases Nat.le_total m n with hle | hle
    · exact (hm.eq_of_prefix hn (List.take_prefix_take_left hle)).1
    · exact (hn.eq_of_prefix hm (List.take_prefix_take_left hle)).1.symm
  · intro framed b b' text text' n n' h h' hp
    obtain ⟨rfl, rfl⟩ := h.eq_of_prefix h' hp
    refine ⟨hp.eq_of_length ?_, rfl⟩
    rw [List.length_take_of_le h.le, List.length_take_of_le h'.le]
  · intro s b hb
    simp only [decompress, hb, decompressBytes, inflateStream_bare]
    by_cases hheader : Zlib.hasHeader b
    · rw [if_pos hheader, if_pos hheader, inflateStream_framed hheader]
      cases Zlib.decompress b with
      | ok text => rfl
      | error e => cases inflateBare b <;> rfl
    · rw [if_neg hheader, if_neg hheader]
      cases inflateBare b <;> rfl

theorem stream_ends_once_dynamic :
    let stream : Bytes := [5, 193, 129, 0, 0, 0, 0, 0, 144, 86, 255, 19, 0, 0, 128]
    let b := stream ++ [7]
    let text : Bytes := List.replicate 20 97
    inflateStream false b = .ok text ∧ EndsAt false b text 15 ∧ EndsAt false stream text 15 ∧
      b.take 15 <+: stream.take 15 ∧ b.take 15 = stream.take 15 ∧
      Base64.decode (Base64.encode b) = .ok b ∧
      decompress (some (Base64.encode b)) = .ok (some "aaaaaaaaaaaaaaaaaaaa") := by
  intro stream b text
  obtain ⟨hends, hfree, hdecompress⟩ := stream_ends_once
  have hok : ∀ {b}, (inflateStream false b).toOption = some text →
      inflateStream false b = .ok text := by
    intro b h
    cases hb : inflateStream false b <;> rw [hb] at h <;> cases h
    rfl
  have hstream : inflateStream false stream = .ok text := hok (by decide +kernel)
  have hb : inflateStream false b = .ok text := hok (by decide +kernel)
  have hcut : (inflateStream false (stream.take 14)).toOption = none := by decide +kernel
  have hlast : ∀ b' : Bytes, b'.take 14 = stream.take 14 → b'.take 15 = stream →
      inflateStream false b' = .ok text → EndsAt false b' text 15 := by
    intro b' h₁₄ h₁₅ h
    obtain ⟨n, hn, -⟩ := hends false b' text h
    have hle : n ≤ 15 := hn.le_of_ok (h₁₅ ▸ hstream)
    have hlt : ¬ n ≤ 14 := by
      intro hn₁₄
      rw [← h₁₄, hn.accepts_take hn₁₄] at hcut
      cases hcut
    obtain rfl : n = 15 := by omega
    exact hn
  have hwhole : EndsAt false b text 15 := hlast b rfl rfl hb
  have hbare : EndsAt false stream text 15 := hlast stream rfl rfl hstream
  have hprefix : b.take 15 <+: stream.take 15 := List.prefix_refl _
  have hdecode := Base64.decode_encode b
  refine ⟨hb, hwhole, hbare, hprefix, (hfree _ _ _ _ _ _ _ hwhole hbare hprefix).1, hdecode, ?_⟩
  have hheader : ¬ Zlib.hasHeader b := by decide
  have htext : Bytes.toText? text = some "aaaaaaaaaaaaaaaaaaaa" := by decide +kernel
  rw [hdecompress _ _ hdecode, if_neg hheader, hb]
  simp only [bind, Except.bind, htext]

end ColumnFunctions
