import ColumnFunctions.Gzip
import ColumnFunctions.Proofs.Deflate.Continuation
import ColumnFunctions.Proofs.Deflate.RoundTrip

namespace ColumnFunctions.Gzip

theorem littleEndian_succ (count n : ℕ) :
    Bytes.littleEndian (count + 1) n =
      UInt8.ofNat n :: Bytes.littleEndian count (n / 256) := by
  simp only [Bytes.littleEndian, List.range_succ_eq_map, List.map_cons, List.map_map]
  refine congrArg₂ List.cons rfl (List.map_congr_left fun i _ ↦ ?_)
  have hshift : n >>> (8 * (i + 1)) = (n / 256) >>> (8 * i) := by
    rw [Nat.mul_succ, Nat.add_comm, Nat.shiftRight_add, Nat.shiftRight_eq_div_pow n 8]
  simp only [Function.comp_apply, Nat.succ_eq_add_one, hshift]

theorem littleEndian_bytes (count n : ℕ) :
    littleEndian (Bytes.littleEndian count n) = n % 256 ^ count := by
  induction count generalizing n with
  | zero => rw [Nat.pow_zero, Nat.mod_one]; rfl
  | succ count ih =>
    rw [littleEndian_succ, littleEndian, List.foldr_cons, ← littleEndian, ih,
      UInt8.toNat_ofNat', Nat.pow_succ' (m := 256), Nat.mod_mul]

theorem littleEndian_injective {a b : Bytes} (hl : a.length = b.length)
    (h : littleEndian a = littleEndian b) : a = b := by
  induction a generalizing b with
  | nil => exact (List.eq_nil_of_length_eq_zero hl.symm).symm
  | cons x a ih =>
    cases b with
    | nil => cases hl
    | cons y b =>
      simp only [littleEndian, List.foldr_cons] at h
      have hx := x.toNat_lt
      have hy := y.toNat_lt
      have hxy : x = y := UInt8.toNat_inj.1 (by omega)
      rw [hxy, ih (Nat.succ.inj hl) (by simp only [littleEndian]; omega)]

/-- A member without optional fields: a header of ten octets, and a stream with what it stands
for. -/
structure Member where
  header : Bytes
  stream : Bytes
  chunk : Bytes
  length_header : header.length = 10
  magic : header.take 3 = [0x1F, 0x8B, 8]
  flags : (header.getD 3 0).toNat < 2
  inflates : Deflate.inflate stream = .ok (chunk, [])

namespace Member

def checksum (m : Member) : Bytes := Bytes.littleEndian 4 (Crc32.ofBytes m.chunk).toNat

def size (m : Member) : Bytes := Bytes.littleEndian 4 m.chunk.length

def framed (m : Member) (checksum size : Bytes) : Bytes :=
  m.header ++ (m.stream ++ (checksum ++ size))

def bytes (m : Member) : Bytes := m.framed m.checksum m.size

def ofBytes (chunk : Bytes) : Member where
  header := [0x1F, 0x8B, 8, 0, 0, 0, 0, 0, 0, 255]
  stream := Deflate.deflate chunk
  chunk := chunk
  length_header := rfl
  magic := rfl
  flags := by decide
  inflates := by
    have h := Deflate.inflate_deflate chunk []
    rwa [List.append_nil] at h

variable (m : Member)

@[simp] theorem length_checksum : m.checksum.length = 4 := Bytes.length_littleEndian 4 _

@[simp] theorem length_size : m.size.length = 4 := Bytes.length_littleEndian 4 _

theorem skipHeader_append (rest : Bytes) : skipHeader (m.header ++ rest) = .ok rest := by
  have htake : take 10 (m.header ++ rest) = .ok (m.header, rest) := by
    have hle : 10 ≤ (m.header ++ rest).length := by
      rw [List.length_append, m.length_header]
      omega
    rw [take, if_pos hle, List.take_left' m.length_header, List.drop_left' m.length_header]
  -- No flag of an optional field is set.
  have hbits : ∀ i, 0 < i → (m.header.getD 3 0).toNat.testBit i = false := by
    intro i hi
    refine Nat.testBit_lt_two_pow (Nat.lt_of_lt_of_le m.flags ?_)
    exact Nat.pow_le_pow_right (show 0 < 2 by decide) hi
  have hflags : ¬ 32 ≤ (m.header.getD 3 0).toNat := by
    have := m.flags
    omega
  simp only [skipHeader, htake, bind, Except.bind, m.magic, ne_eq, not_true, false_or,
    if_neg hflags, hbits 1 (by decide), hbits 2 (by decide), hbits 3 (by decide),
    hbits 4 (by decide), optional]
  rfl

theorem inflateMember_append (rest : Bytes) :
    inflateMember (m.stream ++ rest) = .ok (m.chunk, rest) := by
  rw [inflateMember, Deflate.inflate_append m.inflates, List.nil_append]

/-- The end of a member is accepted if it has the checksum and the length of what was read. -/
theorem readMember_framed {checksum size : Bytes} (hc : checksum.length = 4)
    (hs : size.length = 4) (rest : Bytes) :
    readMember (m.framed checksum size ++ rest) =
      if checksum = m.checksum ∧ size = m.size then .ok (m.chunk, rest)
      else .error .wrongChecksum := by
  have htrailer : (checksum ++ size).length = 8 := by
    rw [List.length_append, hc, hs]
  have htake : take 8 (checksum ++ size ++ rest) = .ok (checksum ++ size, rest) := by
    have hle : 8 ≤ (checksum ++ size ++ rest).length := by
      rw [List.length_append, htrailer]
      omega
    rw [take, if_pos hle, List.take_left' htrailer, List.drop_left' htrailer]
  have hchecksum : littleEndian checksum = (Crc32.ofBytes m.chunk).toNat ↔
      checksum = m.checksum := by
    have hlt : (Crc32.ofBytes m.chunk).toNat < 256 ^ 4 := UInt32.toNat_lt _
    rw [← Nat.mod_eq_of_lt hlt, ← littleEndian_bytes]
    refine ⟨littleEndian_injective ?_, fun h ↦ congrArg littleEndian h⟩
    rw [hc, Bytes.length_littleEndian]
  have hsize : littleEndian size = m.chunk.length % UInt32.size ↔ size = m.size := by
    have hpow : UInt32.size = 256 ^ 4 := rfl
    rw [hpow, ← littleEndian_bytes]
    refine ⟨littleEndian_injective ?_, fun h ↦ congrArg littleEndian h⟩
    rw [hs, Bytes.length_littleEndian]
  have hbytes : m.framed checksum size ++ rest =
      m.header ++ (m.stream ++ (checksum ++ size ++ rest)) := by
    simp only [framed, List.append_assoc]
  simp only [readMember, hbytes, skipHeader_append, inflateMember_append, htake, bind,
    Except.bind, List.take_left' hc, List.drop_left' hc, hchecksum, hsize]
  rfl

theorem readMember_bytes (rest : Bytes) : readMember (m.bytes ++ rest) = .ok (m.chunk, rest) := by
  rw [bytes, readMember_framed m m.length_checksum m.length_size, if_pos ⟨rfl, rfl⟩]

/-- A member that breaks off is refused, wherever that is. -/
theorem readMember_of_cut {p rest : Bytes} (h : p ++ rest = m.bytes) (hr : rest ≠ []) :
    ∃ e, readMember p = .error e := by
  by_cases hp : p.length < 10
  · -- The header is cut.
    refine ⟨.endOfInput, ?_⟩
    simp only [readMember, skipHeader, take, if_neg (Nat.not_le.2 hp), bind, Except.bind]
  have hlen : 10 ≤ p.length := Nat.not_lt.1 hp
  obtain ⟨body, rfl⟩ : ∃ body, p = m.header ++ body := by
    refine ⟨p.drop 10, ?_⟩
    have htake := congrArg (List.take 10) h
    rw [List.take_append_of_le_length hlen, bytes, framed, List.take_left' m.length_header] at htake
    rw [← htake, List.take_append_drop]
  have hbody : body ++ rest = m.stream ++ (m.checksum ++ m.size) := by
    rw [bytes, framed, List.append_assoc] at h
    exact List.append_cancel_left h
  cases hi : inflateMember body with
  | error e =>
    refine ⟨e, ?_⟩
    simp only [readMember, skipHeader_append, hi, bind, Except.bind]
  | ok r =>
    obtain ⟨text, trailer⟩ := r
    -- The stream is whole, so what is left of the trailer is shorter than a trailer.
    have hwhole : inflateMember (body ++ rest) = .ok (text, trailer ++ rest) := by
      rw [inflateMember] at hi ⊢
      split at hi
      · next hd =>
        cases hi
        rw [Deflate.inflate_append hd]
      · cases hi
      · cases hi
    rw [hbody, inflateMember_append, Except.ok.injEq, Prod.mk.injEq] at hwhole
    have hshort : trailer.length < 8 := by
      have := congrArg List.length hwhole.2
      have := List.length_pos_iff.2 hr
      simp only [List.length_append, length_checksum, length_size] at *
      omega
    refine ⟨.endOfInput, ?_⟩
    simp only [readMember, skipHeader_append, hi, take, if_neg (Nat.not_le.2 hshort), bind,
      Except.bind]

end Member

theorem decompress_of_error {b : Bytes} {e : Failure} (h : readMember b = .error e) :
    decompress b = .error e := by
  rw [decompress]
  split <;> simp_all

theorem decompress_of_last {b text : Bytes} (h : readMember b = .ok (text, [])) :
    decompress b = .ok text := by
  rw [decompress]
  split <;> simp_all

theorem decompress_of_more {b text rest : Bytes} (h : readMember b = .ok (text, rest))
    (hr : rest ≠ []) : decompress b = (decompress rest).map (text ++ ·) := by
  rw [decompress]
  split
  · next he => rw [h] at he; cases he
  · next he => rw [h] at he; cases he; exact absurd rfl hr
  · next he =>
    rw [h] at he
    cases he
    split <;> next he => rw [he]; rfl

theorem decompress_nil : decompress [] = .error .endOfInput := decompress_of_error rfl

/-- What follows a member is nothing or can itself be read. -/
theorem decompress_bytes_append {m : Member} {q text : Bytes} :
    decompress (m.bytes ++ q) = .ok text ↔
      q = [] ∧ text = m.chunk ∨ ∃ more, decompress q = .ok more ∧ text = m.chunk ++ more := by
  by_cases hq : q = []
  · subst hq
    rw [decompress_of_last (m.readMember_bytes []), Except.ok.injEq, decompress_nil]
    simp [eq_comm]
  · rw [decompress_of_more (m.readMember_bytes q) hq]
    cases decompress q <;> simp [Except.map, hq, eq_comm]

/-- The beginning of a row of members breaks off in the first one or goes beyond it. -/
theorem prefix_cases {m : Member} {members : List Member} {p : Bytes}
    (h : p <+: (m :: members).flatMap Member.bytes) :
    (∃ rest, p ++ rest = m.bytes ∧ rest ≠ []) ∨
      ∃ q, p = m.bytes ++ q ∧ q <+: members.flatMap Member.bytes := by
  rw [List.flatMap_cons] at h
  rcases List.prefix_or_prefix_of_prefix h (List.prefix_append _ _) with ⟨rest, hr⟩ | ⟨q, rfl⟩
  · cases rest with
    | nil =>
      rw [List.append_nil] at hr
      exact .inr ⟨[], by rw [hr, List.append_nil], List.nil_prefix⟩
    | cons c rest => exact .inl ⟨c :: rest, hr, List.cons_ne_nil c rest⟩
  · exact .inr ⟨q, rfl, (List.prefix_append_right_inj _).1 h⟩

/-- What is read of the beginning of a row of members: the chunks of some of them, if it ends
behind the last of these. -/
theorem decompress_beginning (members : List Member) {p text : Bytes}
    (hp : p <+: members.flatMap Member.bytes) :
    decompress p = .ok text ↔ ∃ j, 0 < j ∧ j ≤ members.length ∧
      p = (members.take j).flatMap Member.bytes ∧
      text = (members.take j).flatMap Member.chunk := by
  induction members generalizing p text with
  | nil =>
    obtain rfl := List.prefix_nil.1 hp
    rw [decompress_nil]
    refine ⟨fun h ↦ (nomatch h), ?_⟩
    rintro ⟨j, hpos, hle, -⟩
    exact absurd hpos (Nat.not_lt.2 hle)
  | cons m members ih =>
    rcases prefix_cases hp with ⟨rest, hcut, hr⟩ | ⟨q, rfl, hq⟩
    · obtain ⟨e, he⟩ := m.readMember_of_cut hcut hr
      rw [decompress_of_error he]
      refine ⟨fun h ↦ (nomatch h), ?_⟩
      rintro ⟨j, hpos, -, rfl, -⟩
      obtain ⟨j, rfl⟩ := Nat.exists_eq_succ_of_ne_zero (Nat.ne_of_gt hpos)
      have hlen := congrArg List.length hcut
      have := List.length_pos_iff.2 hr
      simp only [Nat.succ_eq_add_one, List.take_succ_cons, List.flatMap_cons,
        List.length_append] at hlen
      omega
    · simp only [decompress_bytes_append, ih hq]
      constructor
      · rintro (⟨rfl, rfl⟩ | ⟨_, ⟨j, -, hle, rfl, rfl⟩, rfl⟩)
        · exact ⟨1, Nat.one_pos, by simp, by simp, by simp⟩
        · refine ⟨j + 1, Nat.succ_pos j, Nat.succ_le_succ hle, ?_, ?_⟩
          · rw [List.take_succ_cons, List.flatMap_cons]
          · rw [List.take_succ_cons, List.flatMap_cons]
      · rintro ⟨j, hpos, hle, hbytes, rfl⟩
        obtain ⟨j, rfl⟩ := Nat.exists_eq_succ_of_ne_zero (Nat.ne_of_gt hpos)
        rw [Nat.succ_eq_add_one, List.take_succ_cons, List.flatMap_cons] at hbytes ⊢
        have hrest := List.append_cancel_left hbytes
        cases j with
        | zero => exact .inl ⟨hrest, by simp⟩
        | succ j =>
          exact .inr ⟨_, ⟨j + 1, Nat.succ_pos j, Nat.le_of_succ_le_succ hle, hrest, rfl⟩, rfl⟩

/-- A row of members stands for their chunks in order. -/
theorem decompress_members {members : List Member} (h : members ≠ []) :
    decompress (members.flatMap Member.bytes) = .ok (members.flatMap Member.chunk) := by
  refine (decompress_beginning members (List.prefix_refl _)).2
    ⟨members.length, List.length_pos_iff.2 h, Nat.le_refl _, ?_, ?_⟩
  · rw [List.take_length]
  · rw [List.take_length]

theorem decompress_bytes (m : Member) : decompress m.bytes = .ok m.chunk := by
  have h := m.readMember_bytes []
  rw [List.append_nil] at h
  exact decompress_of_last h

/-- A row of members of which one has another checksum or length is refused. -/
theorem decompress_of_damaged (before : List Member) (m : Member) {checksum size : Bytes}
    (hc : checksum.length = 4) (hs : size.length = 4)
    (hne : checksum ≠ m.checksum ∨ size ≠ m.size) (rest : Bytes) :
    decompress (before.flatMap Member.bytes ++ (m.framed checksum size ++ rest)) =
      .error .wrongChecksum := by
  induction before with
  | nil =>
    refine decompress_of_error ?_
    rw [List.flatMap_nil, List.nil_append, Member.readMember_framed m hc hs,
      if_neg (Decidable.not_and_iff_not_or_not.2 hne)]
  | cons first before ih =>
    have hnil : before.flatMap Member.bytes ++ (m.framed checksum size ++ rest) ≠ [] := by
      refine List.append_ne_nil_of_right_ne_nil _ (List.append_ne_nil_of_left_ne_nil ?_ _)
      refine List.ne_nil_of_length_pos ?_
      rw [Member.framed, List.length_append, m.length_header]
      omega
    rw [List.flatMap_cons, List.append_assoc,
      decompress_of_more (first.readMember_bytes _) hnil, ih]
    rfl

end ColumnFunctions.Gzip
