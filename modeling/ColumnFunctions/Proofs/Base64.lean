import ColumnFunctions.Attempt
import ColumnFunctions.Base64

namespace ColumnFunctions.Base64

def symbolByte (v : Nat) : UInt8 := (symbol v).toUInt8

def encodeBytes (b : Bytes) : Bytes := (encodeChars b).map Char.toUInt8

section Symbols

theorem utf8Size_symbol : ∀ v < 64, (symbol v).utf8Size = 1 := by decide

@[simp] theorem value?_symbolByte : ∀ v < 64, value? (symbolByte v) = some v := by decide

theorem symbolByte_ne_pad : ∀ v < 64, symbolByte v ≠ pad := by decide

theorem symbolByte_of_value?_ofNat :
    ∀ n < 256, ∀ v ∈ value? (UInt8.ofNat n), v < 64 ∧ symbolByte v = UInt8.ofNat n := by
  decide +kernel

theorem symbolByte_of_value? {b : UInt8} {v : Nat} (h : value? b = some v) :
    v < 64 ∧ symbolByte v = b := by
  have hb := symbolByte_of_value?_ofNat b.toNat b.toNat_lt v
  rw [UInt8.ofNat_toNat] at hb
  exact hb h

end Symbols

section Text

theorem ofText_ofList {cs : List Char} (h : ∀ c ∈ cs, c.utf8Size = 1) :
    Bytes.ofText (String.ofList cs) = cs.map Char.toUInt8 := by
  have hb : Bytes.ofText (String.ofList cs) = cs.flatMap String.utf8EncodeChar := by
    simp [Bytes.ofText, String.toUTF8, String.ofList, List.utf8Encode]
  rw [hb]
  clear hb
  induction cs with
  | nil => rfl
  | cons c cs ih =>
    rw [List.forall_mem_cons] at h
    rw [List.flatMap_cons, String.utf8EncodeChar_eq_singleton h.1, ih h.2]
    rfl

theorem utf8Size_encodeChars (b : Bytes) : ∀ c ∈ encodeChars b, c.utf8Size = 1 := by
  fun_induction encodeChars b with
  | case1 a b c rest ih =>
    have ha := a.toNat_lt
    have hb := b.toNat_lt
    have hc := c.toNat_lt
    simp only [List.forall_mem_cons]
    exact ⟨utf8Size_symbol _ (by omega), utf8Size_symbol _ (by omega),
      utf8Size_symbol _ (by omega), utf8Size_symbol _ (by omega), ih⟩
  | case2 a b =>
    have ha := a.toNat_lt
    have hb := b.toNat_lt
    simp only [List.forall_mem_cons]
    exact ⟨utf8Size_symbol _ (by omega), utf8Size_symbol _ (by omega),
      utf8Size_symbol _ (by omega), by decide, by simp⟩
  | case3 a =>
    have ha := a.toNat_lt
    simp only [List.forall_mem_cons]
    exact ⟨utf8Size_symbol _ (by omega), utf8Size_symbol _ (by omega), by decide, by decide,
      by simp⟩
  | case4 => simp

theorem ofText_encode (b : Bytes) : Bytes.ofText (encode b) = encodeBytes b :=
  ofText_ofList (utf8Size_encodeChars b)

end Text

section Groups

def quad (v w x y : Nat) : Bytes := [symbolByte v, symbolByte w, symbolByte x, symbolByte y]

theorem encodeBytes_cons₃ (a b c : UInt8) (rest : Bytes) :
    encodeBytes (a :: b :: c :: rest) =
      quad (a.toNat / 4) (a.toNat % 4 * 16 + b.toNat / 16) (b.toNat % 16 * 4 + c.toNat / 64)
        (c.toNat % 64) ++ encodeBytes rest := by
  simp only [encodeBytes, encodeChars, List.map_cons, quad, symbolByte, List.cons_append,
    List.nil_append]

theorem length_encodeBytes (b : Bytes) : (encodeBytes b).length % 4 = 0 := by
  simp only [encodeBytes, List.length_map]
  fun_induction encodeChars b with
  | case1 a b c rest ih =>
    simp only [List.length_cons]
    omega
  | case2 | case3 | case4 =>
    simp only [List.length_cons, List.length_nil, Nat.zero_mod, Nat.reduceAdd, Nat.reduceMod]

theorem octets_of_toNat (a b c : UInt8) :
    octets (a.toNat / 4) (a.toNat % 4 * 16 + b.toNat / 16) (b.toNat % 16 * 4 + c.toNat / 64)
      (c.toNat % 64) = [a, b, c] := by
  have ha := a.toNat_lt
  have hb := b.toNat_lt
  have hc := c.toNat_lt
  have h₁ : a.toNat / 4 * 4 + (a.toNat % 4 * 16 + b.toNat / 16) / 16 = a.toNat := by omega
  have h₂ : (a.toNat % 4 * 16 + b.toNat / 16) % 16 * 16 + (b.toNat % 16 * 4 + c.toNat / 64) / 4 =
      b.toNat := by omega
  have h₃ : (b.toNat % 16 * 4 + c.toNat / 64) % 4 * 64 + c.toNat % 64 = c.toNat := by omega
  simp only [octets, h₁, h₂, h₃, UInt8.ofNat_toNat]

theorem take_octets_two (a b : UInt8) :
    (octets (a.toNat / 4) (a.toNat % 4 * 16 + b.toNat / 16) (b.toNat % 16 * 4) 0).take 2 = [a, b] :=
  congrArg (List.take 2) (octets_of_toNat a b 0)

theorem take_octets_one (a : UInt8) :
    (octets (a.toNat / 4) (a.toNat % 4 * 16) 0 0).take 1 = [a] :=
  congrArg (List.take 1) (octets_of_toNat a 0 0)

/-- The three octets of a group give its values back. -/
theorem encodeChars_octets {v w x y : Nat} (hv : v < 64) (hw : w < 64) (hx : x < 64) (hy : y < 64)
    (rest : Bytes) : encodeChars (octets v w x y ++ rest) =
      symbol v :: symbol w :: symbol x :: symbol y :: encodeChars rest := by
  have hsize : UInt8.size = 256 := rfl
  have h₁ : (v * 4 + w / 16) / 4 = v := by omega
  have h₂ : (v * 4 + w / 16) % 4 * 16 + (w % 16 * 16 + x / 4) / 16 = w := by omega
  have h₃ : (w % 16 * 16 + x / 4) % 16 * 4 + (x % 4 * 64 + y) / 64 = x := by omega
  have h₄ : (x % 4 * 64 + y) % 64 = y := by omega
  simp only [octets, List.cons_append, List.nil_append, encodeChars]
  rw [UInt8.toNat_ofNat_of_lt' (by omega), UInt8.toNat_ofNat_of_lt' (by omega),
    UInt8.toNat_ofNat_of_lt' (by omega), h₁, h₂, h₃, h₄]

theorem encodeChars_take_two {v w x : Nat} (hv : v < 64) (hw : w < 64) (hx : x < 64)
    (hm : x % 4 = 0) :
    encodeChars ((octets v w x 0).take 2) = [symbol v, symbol w, symbol x, '='] := by
  have hsize : UInt8.size = 256 := rfl
  have h₁ : (v * 4 + w / 16) / 4 = v := by omega
  have h₂ : (v * 4 + w / 16) % 4 * 16 + (w % 16 * 16 + x / 4) / 16 = w := by omega
  have h₃ : (w % 16 * 16 + x / 4) % 16 * 4 = x := by omega
  simp only [octets, List.take, encodeChars]
  rw [UInt8.toNat_ofNat_of_lt' (by omega), UInt8.toNat_ofNat_of_lt' (by omega), h₁, h₂, h₃]

theorem encodeChars_take_one {v w : Nat} (hv : v < 64) (hw : w < 64) (hm : w % 16 = 0) :
    encodeChars ((octets v w 0 0).take 1) = [symbol v, symbol w, '=', '='] := by
  have hsize : UInt8.size = 256 := rfl
  have h₁ : (v * 4 + w / 16) / 4 = v := by omega
  have h₂ : (v * 4 + w / 16) % 4 * 16 = w := by omega
  simp only [octets, List.take, encodeChars]
  rw [UInt8.toNat_ofNat_of_lt' (by omega), h₁, h₂]

theorem encodeBytes_octets {v w x y : Nat} (hv : v < 64) (hw : w < 64) (hx : x < 64) (hy : y < 64)
    (rest : Bytes) : encodeBytes (octets v w x y ++ rest) = quad v w x y ++ encodeBytes rest :=
  congrArg (List.map Char.toUInt8) (encodeChars_octets hv hw hx hy rest)

theorem encodeBytes_take_two {v w x : Nat} (hv : v < 64) (hw : w < 64) (hx : x < 64)
    (hm : x % 4 = 0) :
    encodeBytes ((octets v w x 0).take 2) = [symbolByte v, symbolByte w, symbolByte x, pad] :=
  congrArg (List.map Char.toUInt8) (encodeChars_take_two hv hw hx hm)

theorem encodeBytes_take_one {v w : Nat} (hv : v < 64) (hw : w < 64) (hm : w % 16 = 0) :
    encodeBytes ((octets v w 0 0).take 1) = [symbolByte v, symbolByte w, pad, pad] :=
  congrArg (List.map Char.toUInt8) (encodeChars_take_one hv hw hm)

theorem scan_symbolByte {v : Nat} (hv : v < 64) (offset i : Nat) {t : Tail} (ht : t.padding = 0)
    (rest : Bytes) : Tail.scan offset i t (symbolByte v :: rest) =
      Tail.scan offset (i + 1) { t with symbols := t.symbols ++ [(symbolByte v, v)] } rest := by
  rw [Tail.scan, if_neg (symbolByte_ne_pad v hv), ht, if_neg (Nat.lt_irrefl 0),
    value?_symbolByte v hv]

theorem scan_pad {offset i : Nat} (hi : 2 ≤ i) (t : Tail) (rest : Bytes) :
    Tail.scan offset i t (pad :: rest) =
      Tail.scan offset (i + 1) { t with padding := t.padding + 1 } rest := by
  rw [Tail.scan, if_pos rfl, if_neg (Nat.not_lt.2 hi)]

theorem decodeGroups_last (offset : Nat) (a b c d : UInt8) :
    decodeGroups offset [a, b, c, d] =
      (Tail.scan offset 0 ⟨[], 0⟩ [a, b, c, d] >>= Tail.octets offset) := rfl

theorem decodeGroups_quad {v w x y : Nat} (hv : v < 64) (hw : w < 64) (hx : x < 64) (hy : y < 64)
    (offset : Nat) (rest : Bytes) :
    decodeGroups offset (quad v w x y ++ rest) =
      (decodeGroups (offset + 4) rest).map (octets v w x y ++ ·) := by
  cases rest with
  | nil =>
    rw [List.append_nil, quad, decodeGroups_last,
      scan_symbolByte hv _ _ rfl, scan_symbolByte hw _ _ rfl, scan_symbolByte hx _ _ rfl,
      scan_symbolByte hy _ _ rfl, Tail.scan]
    simp [decodeGroups, Tail.octets, bind, Except.bind, Except.map]
  | cons e rest =>
    simp only [quad, List.cons_append, List.nil_append, decodeGroups, inner,
      value?_symbolByte v hv, value?_symbolByte w hw, value?_symbolByte x hx,
      value?_symbolByte y hy]
    cases decodeGroups (offset + 4) (e :: rest) <;> rfl

theorem decodeGroups_encodeBytes (offset : Nat) (b : Bytes) :
    decodeGroups offset (encodeBytes b) = .ok b := by
  induction b using encodeChars.induct generalizing offset with
  | case1 a b c rest ih =>
    have ha := a.toNat_lt
    have hb := b.toNat_lt
    have hc := c.toNat_lt
    rw [encodeBytes_cons₃, decodeGroups_quad (by omega) (by omega) (by omega) (by omega), ih,
      octets_of_toNat]
    rfl
  | case2 a b =>
    have ha := a.toNat_lt
    have hb := b.toNat_lt
    have henc : encodeBytes [a, b] = [symbolByte (a.toNat / 4),
      symbolByte (a.toNat % 4 * 16 + b.toNat / 16), symbolByte (b.toNat % 16 * 4), pad] := rfl
    rw [henc, decodeGroups_last,
      scan_symbolByte (by omega) _ _ rfl, scan_symbolByte (by omega) _ _ rfl,
      scan_symbolByte (by omega) _ _ rfl, scan_pad (by decide), Tail.scan]
    simp [bind, Except.bind, Tail.octets, take_octets_two]
  | case3 a =>
    have ha := a.toNat_lt
    have henc : encodeBytes [a] = [symbolByte (a.toNat / 4), symbolByte (a.toNat % 4 * 16), pad,
      pad] := rfl
    rw [henc, decodeGroups_last,
      scan_symbolByte (by omega) _ _ rfl, scan_symbolByte (by omega) _ _ rfl,
      scan_pad (by decide), scan_pad (by decide), Tail.scan]
    simp [bind, Except.bind, Tail.octets, take_octets_one]
  | case4 => rfl

end Groups

section Canonical

def Tail.text (t : Tail) : Bytes := t.symbols.map Prod.fst ++ List.replicate t.padding pad

def Tail.Noted (t : Tail) : Prop := ∀ p ∈ t.symbols, value? p.1 = some p.2

theorem Tail.Noted.symbol {t : Tail} (hn : t.Noted) {p : UInt8} {v : Nat}
    (h : (p, v) ∈ t.symbols) : v < 64 ∧ symbolByte v = p :=
  symbolByte_of_value? (hn (p, v) h)

theorem text_of_scan {offset i : Nat} {t u : Tail} {last : Bytes} (hn : t.Noted)
    (h : Tail.scan offset i t last = .ok u) : u.text = t.text ++ last ∧ u.Noted := by
  induction last generalizing i t with
  | nil =>
    cases h
    exact ⟨(List.append_nil _).symm, hn⟩
  | cons b last ih =>
    rw [Tail.scan] at h
    split at h
    · next hb =>
      split at h
      · cases h
      · obtain ⟨ht, hu⟩ := ih (t := { t with padding := t.padding + 1 }) hn h
        refine ⟨?_, hu⟩
        rw [ht, hb]
        simp [Tail.text, List.replicate_succ']
    · split at h
      · cases h
      · next hp =>
        split at h
        · next v hv =>
          obtain ⟨ht, hu⟩ := ih (t := { t with symbols := t.symbols ++ [(b, v)] })
            (by
              intro p hp
              rcases List.mem_append.1 hp with hp | hp
              · exact hn p hp
              · rw [List.mem_singleton.1 hp]
                exact hv) h
          refine ⟨?_, hu⟩
          rw [ht]
          simp [Tail.text, Nat.eq_zero_of_not_pos hp]
        · cases h

theorem encodeBytes_of_octets {offset : Nat} {t : Tail} {b : Bytes} (hn : t.Noted)
    (h₄ : t.text.length ≤ 4) (h : t.octets offset = .ok b) : encodeBytes b = t.text := by
  obtain ⟨symbols, padding⟩ := t
  simp only [Tail.text, List.length_append, List.length_map, List.length_replicate] at h₄ ⊢
  simp only [Tail.octets] at h
  -- The symbols settle the padding, and no bit left over settles the last symbol.
  split at h
  · cases h
  split at h
  · cases h
  next h₂ hm =>
  split at h
  · next p v q w =>
    obtain ⟨hv, rfl⟩ := hn.symbol (p := p) (v := v) (by simp)
    obtain ⟨hw, rfl⟩ := hn.symbol (p := q) (v := w) (by simp)
    simp only [List.length_cons, List.length_nil] at h₄ hm
    obtain rfl : padding = 2 := by omega
    split at h
    · next hz =>
      cases h
      rw [encodeBytes_take_one hv hw hz]
      rfl
    · cases h
  · next p v q w r x =>
    obtain ⟨hv, rfl⟩ := hn.symbol (p := p) (v := v) (by simp)
    obtain ⟨hw, rfl⟩ := hn.symbol (p := q) (v := w) (by simp)
    obtain ⟨hx, rfl⟩ := hn.symbol (p := r) (v := x) (by simp)
    simp only [List.length_cons, List.length_nil] at h₄ hm
    obtain rfl : padding = 1 := by omega
    split at h
    · next hz =>
      cases h
      rw [encodeBytes_take_two hv hw hx hz]
      rfl
    · cases h
  · next p v q w r x s y more =>
    obtain ⟨hv, rfl⟩ := hn.symbol (p := p) (v := v) (by simp)
    obtain ⟨hw, rfl⟩ := hn.symbol (p := q) (v := w) (by simp)
    obtain ⟨hx, rfl⟩ := hn.symbol (p := r) (v := x) (by simp)
    obtain ⟨hy, rfl⟩ := hn.symbol (p := s) (v := y) (by simp)
    simp only [List.length_cons] at h₄
    obtain rfl : more = [] := List.eq_nil_of_length_eq_zero (by omega)
    obtain rfl : padding = 0 := by omega
    cases h
    have he := encodeBytes_octets hv hw hx hy []
    rw [List.append_nil] at he
    rw [he]
    rfl
  · cases h

theorem inner_eq_ok {offset v : Nat} {b : UInt8} (h : inner offset b = .ok v) :
    v < 64 ∧ symbolByte v = b := by
  simp only [inner] at h
  split at h
  · next hv =>
    cases h
    exact symbolByte_of_value? hv
  · cases h

/-- Nothing but the encoding of octets decodes to them. -/
theorem encodeBytes_of_decodeGroups {offset : Nat} {text b : Bytes}
    (h : decodeGroups offset text = .ok b) : encodeBytes b = text := by
  fun_induction decodeGroups offset text generalizing b with
  | case1 offset p q r s e rest ih =>
    obtain ⟨v, hv, h⟩ := bind_eq_ok.1 h
    obtain ⟨w, hw, h⟩ := bind_eq_ok.1 h
    obtain ⟨x, hx, h⟩ := bind_eq_ok.1 h
    obtain ⟨y, hy, h⟩ := bind_eq_ok.1 h
    obtain ⟨more, hmore, h⟩ := bind_eq_ok.1 h
    cases h
    obtain ⟨hv₆, rfl⟩ := inner_eq_ok hv
    obtain ⟨hw₆, rfl⟩ := inner_eq_ok hw
    obtain ⟨hx₆, rfl⟩ := inner_eq_ok hx
    obtain ⟨hy₆, rfl⟩ := inner_eq_ok hy
    rw [encodeBytes_octets hv₆ hw₆ hx₆ hy₆, ih hmore]
    rfl
  | case2 => cases h; rfl
  | case3 offset last h₅ h₀ =>
    obtain ⟨t, ht, h⟩ := bind_eq_ok.1 h
    obtain ⟨htext, hn⟩ := text_of_scan (by simp [Tail.Noted]) ht
    have hlen : last.length ≤ 4 := by
      match last with
      | [] | [_] | [_, _] | [_, _, _] | [_, _, _, _] => simp
      | a :: b :: c :: d :: e :: rest => exact absurd rfl (h₅ a b c d e rest)
    have htext : t.text = last := by simpa [Tail.text] using htext
    rw [← htext] at hlen ⊢
    exact encodeBytes_of_octets hn hlen h

end Canonical

theorem decodeBytes_encodeBytes (b : Bytes) : decodeBytes (encodeBytes b) = .ok b := by
  have hs : strayLast? (encodeBytes b) = none := by
    have := length_encodeBytes b
    simp only [strayLast?]
    split
    · rw [if_neg (by omega)]
    · rfl
  rw [decodeBytes, hs]
  exact decodeGroups_encodeBytes 0 b

@[simp] theorem decode_encode (b : Bytes) : decode (encode b) = .ok b := by
  rw [decode, ofText_encode, decodeBytes_encodeBytes]

/-- A text decodes to octets exactly when it is their encoding. -/
theorem decode_eq_ok {text : String} {b : Bytes} : decode text = .ok b ↔ text = encode b := by
  constructor
  · intro h
    rw [decode, decodeBytes] at h
    split at h
    · cases h
    · have ht := encodeBytes_of_decodeGroups h
      rw [← ofText_encode] at ht
      exact Option.some.inj ((Bytes.toText?_ofText text).symm.trans (Bytes.toText?_eq_some.2 ht))
  · rintro rfl
    exact decode_encode b

end ColumnFunctions.Base64
