import ColumnFunctions.Json.Quoted

namespace ColumnFunctions.Json.Quoted

inductive Piece
  | char (c : Char)
  | unit (n : Nat)

inductive Piece.Spells : Piece → List Char → Prop
  | plain {c : Char} (h : 32 ≤ c.toNat) (hq : c ≠ '"') (hb : c ≠ '\\') : Spells (.char c) [c]
  | escape {e c : Char} (h : unescaped? e = some c) : Spells (.char c) ['\\', e]
  | unit {a b c d : Char} {n : Nat} (h : unit? a b c d = some n) :
      Spells (.unit n) ['\\', 'u', a, b, c, d]

inductive SpellsAll : List Piece → List Char → Prop
  | nil : SpellsAll [] []
  | cons {p : Piece} {ps : List Piece} {cs rest : List Char} (h : p.Spells cs)
      (hs : SpellsAll ps rest) : SpellsAll (p :: ps) (cs ++ rest)

/-- The text that pieces make up, unless a surrogate among them has no partner. -/
def textOf? : List Piece → Option (List Char)
  | [] => some []
  | .char c :: ps => (textOf? ps).map (c :: ·)
  | .unit high :: .unit n :: ps =>
    if isHigh high then if isLow n then (textOf? ps).map (ofPair high n :: ·) else none
    else if isLow high then none
    else (textOf? (.unit n :: ps)).map (Char.ofNat high :: ·)
  | .unit n :: ps =>
    if isHigh n ∨ isLow n then none else (textOf? ps).map (Char.ofNat n :: ·)

inductive Spells : Option String → List Char → Prop
  | mk {ps : List Piece} {cs : List Char} (h : SpellsAll ps cs) :
      Spells ((textOf? ps).map String.ofList) ('"' :: (cs ++ ['"']))

theorem textOf?_high_char {n : Nat} (h : isHigh n) (c : Char) (ps : List Piece) :
    textOf? (.unit n :: .char c :: ps) = none := by
  simp [textOf?, h]

theorem textOf?_low {n : Nat} (h : isHigh n = false) (hl : isLow n) (ps : List Piece) :
    textOf? (.unit n :: ps) = none := by
  rcases ps with _ | ⟨_ | _, ps⟩ <;> simp [textOf?, h, hl]

theorem textOf?_unit {n : Nat} (h : isHigh n = false) (hl : isLow n = false) (ps : List Piece) :
    textOf? (.unit n :: ps) = (textOf? ps).map (Char.ofNat n :: ·) := by
  rcases ps with _ | ⟨_ | _, ps⟩ <;> simp [textOf?, h, hl]

namespace Draft

def Sound (d : Draft) : Prop := ∀ n ∈ d.high, isHigh n

/-- The text there will be once some more pieces have been read. -/
def finish (d : Draft) (ps : List Piece) : Option (List Char) := do
  let cs ← d.text.toOption
  let more ← textOf? (d.high.toList.map .unit ++ ps)
  return cs.reverse ++ more

theorem sound_empty : empty.Sound := fun _ h ↦ nomatch h

theorem sound_spoil (d : Draft) (cause : Cause) (offset : Nat) : (d.spoil cause offset).Sound := by
  intro n h
  simp only [spoil] at h
  split at h <;> exact nomatch h

theorem sound_add (d : Draft) (c : Char) (offset : Nat) : (d.add c offset).Sound := by
  simp only [add]
  split
  · exact sound_spoil d _ _
  · exact fun _ h ↦ nomatch h

theorem sound_addUnit (d : Draft) (n offset : Nat) : (d.addUnit n offset).Sound := by
  simp only [addUnit]
  split
  · split
    · exact fun _ h ↦ nomatch h
    · exact sound_spoil d _ _
  · split
    · next h =>
      intro m hm
      cases hm
      exact h
    · split
      · exact sound_spoil d _ _
      · exact fun _ h ↦ nomatch h

@[simp] theorem finish_empty (ps : List Piece) : empty.finish ps = textOf? ps := by
  simp [finish, empty, Except.toOption]

@[simp] theorem finish_error (i : Issue) (high : Option Nat) (ps : List Piece) :
    finish ⟨.error i, high⟩ ps = none := rfl

@[simp] theorem finish_ok (cs : List Char) (high : Option Nat) (ps : List Piece) :
    finish ⟨.ok cs, high⟩ ps =
      (textOf? (high.toList.map .unit ++ ps)).map (cs.reverse ++ ·) := by
  simp only [finish, Except.toOption]
  cases textOf? (high.toList.map .unit ++ ps) <;> rfl

@[simp] theorem finish_spoil (d : Draft) (cause : Cause) (offset : Nat) (ps : List Piece) :
    (d.spoil cause offset).finish ps = none := by
  simp only [spoil]
  split <;> rfl

theorem close_toOption {d : Draft} (hd : d.Sound) (offset : Nat) :
    (d.close offset).toOption = (d.finish []).map String.ofList := by
  obtain ⟨text, high⟩ := d
  cases high with
  | none => cases text <;> simp [close, Except.map, Except.toOption, textOf?]
  | some n =>
    have hn : isHigh n := hd n rfl
    cases text <;> simp [close, spoil, Except.map, Except.toOption, textOf?, hn]

theorem finish_add {d : Draft} (hd : d.Sound) (c : Char) (offset : Nat) (ps : List Piece) :
    (d.add c offset).finish ps = d.finish (.char c :: ps) := by
  obtain ⟨text, high⟩ := d
  cases high with
  | none => cases text <;> simp [add, Except.map, textOf?, Function.comp_def]
  | some n =>
    have hn : isHigh n := hd n rfl
    cases text <;> simp [add, textOf?_high_char hn]

theorem finish_addUnit {d : Draft} (hd : d.Sound) (n offset : Nat) (ps : List Piece) :
    (d.addUnit n offset).finish ps = d.finish (.unit n :: ps) := by
  obtain ⟨text, high⟩ := d
  cases high with
  | none =>
    simp only [addUnit]
    split
    · cases text <;> simp
    · next h =>
      rw [Bool.not_eq_true] at h
      split
      · next hl => cases text <;> simp [textOf?_low h hl]
      · next hl =>
        rw [Bool.not_eq_true] at hl
        cases text <;> simp [Except.map, textOf?_unit h hl, Function.comp_def]
  | some high =>
    have hn : isHigh high := hd high rfl
    simp only [addUnit]
    split
    · next hl => cases text <;> simp [Except.map, textOf?, hn, hl, Function.comp_def]
    · next hl => cases text <;> simp [textOf?, hn, hl]

end Draft

theorem readFrom_takes {d : Draft} {offset : Nat} {cs : List Char} {text : Except Issue String}
    {c : Cursor} (hd : d.Sound) (h : readFrom d offset cs = .ok (text, c)) :
    ∃ ps body, cs = body ++ '"' :: c.rest ∧ SpellsAll ps body ∧
      text.toOption = (d.finish ps).map String.ofList := by
  fun_induction readFrom d offset cs with
  | case1 => cases h
  | case2 d offset rest =>
    cases h
    exact ⟨[], [], rfl, .nil, Draft.close_toOption hd _⟩
  | case3 => cases h
  | case4 d offset a b c e rest n hn ih =>
    obtain ⟨ps, body, rfl, hps, ht⟩ := ih (Draft.sound_addUnit d _ _) h
    exact ⟨_, _, rfl, .cons (.unit hn) hps, ht.trans (congrArg _ (Draft.finish_addUnit hd _ _ _))⟩
  | case5 => cases h
  | case6 => cases h
  | case7 d offset c rest _ _ x hx ih =>
    obtain ⟨ps, body, rfl, hps, ht⟩ := ih (Draft.sound_add d _ _) h
    exact ⟨_, _, rfl, .cons (.escape hx) hps, ht.trans (congrArg _ (Draft.finish_add hd _ _ _))⟩
  | case8 => cases h
  | case9 => cases h
  | case10 d offset c rest hq hend _ _ hb hc ih =>
    have hplain : c ≠ '\\' := by
      rintro rfl
      cases rest with
      | nil => exact hend rfl rfl
      | cons e rest => exact hb e rest rfl rfl
    obtain ⟨ps, body, rfl, hps, ht⟩ := ih (Draft.sound_add d _ _) h
    exact ⟨_, _, rfl, .cons (.plain (Nat.not_lt.1 hc) hq hplain) hps,
      ht.trans (congrArg _ (Draft.finish_add hd _ _ _))⟩

theorem readFrom_plain {c : Char} (h : 32 ≤ c.toNat) (hq : c ≠ '"') (hb : c ≠ '\\') (d : Draft)
    (offset : Nat) (rest : List Char) :
    readFrom d offset (c :: rest) =
      readFrom (d.add c (offset + 1)) (offset + c.utf8Size) rest := by
  rw [readFrom]
  · exact if_neg (Nat.not_lt.2 h)
  · exact hq
  · exact fun h ↦ absurd h hb
  · exact fun _ _ _ _ _ h ↦ absurd h hb
  · exact fun _ h ↦ absurd h hb
  · exact fun _ _ h ↦ absurd h hb

theorem readFrom_escape {e c : Char} (h : unescaped? e = some c) (d : Draft) (offset : Nat)
    (rest : List Char) :
    readFrom d offset ('\\' :: e :: rest) =
      readFrom (d.add c (offset + 2)) (offset + 2) rest := by
  have hu : e ≠ 'u' := by
    rintro rfl
    cases h
  rw [readFrom]
  · rw [h]
  · exact fun _ _ _ _ _ h ↦ absurd h hu
  · exact hu

theorem readFrom_unit {a b c e : Char} {n : Nat} (h : unit? a b c e = some n) (d : Draft)
    (offset : Nat) (rest : List Char) :
    readFrom d offset ('\\' :: 'u' :: a :: b :: c :: e :: rest) =
      readFrom (d.addUnit n (offset + 6)) (offset + 6) rest := by
  rw [readFrom, h]

theorem readFrom_takesAll {ps : List Piece} {body : List Char} (h : SpellsAll ps body) {d : Draft}
    (hd : d.Sound) (offset : Nat) (rest : List Char) :
    ∃ text after, readFrom d offset (body ++ '"' :: rest) = .ok (text, ⟨rest, after⟩) ∧
      text.toOption = (d.finish ps).map String.ofList := by
  induction h generalizing d offset with
  | nil => exact ⟨_, _, by rw [List.nil_append, readFrom], Draft.close_toOption hd _⟩
  | cons hp hs ih =>
    cases hp with
    | plain h hq hb =>
      obtain ⟨text, after, hread, ht⟩ := ih (Draft.sound_add d _ _) (offset + _)
      exact ⟨text, after, (readFrom_plain h hq hb d offset _).trans hread,
        ht.trans (congrArg _ (Draft.finish_add hd _ _ _))⟩
    | escape h =>
      obtain ⟨text, after, hread, ht⟩ := ih (Draft.sound_add d _ _) (offset + 2)
      exact ⟨text, after, (readFrom_escape h d offset _).trans hread,
        ht.trans (congrArg _ (Draft.finish_add hd _ _ _))⟩
    | unit h =>
      obtain ⟨text, after, hread, ht⟩ := ih (Draft.sound_addUnit d _ _) (offset + 6)
      exact ⟨text, after, (readFrom_unit h d offset _).trans hread,
        ht.trans (congrArg _ (Draft.finish_addUnit hd _ _ _))⟩

/-- What is read after an opening quote spells a string together with it. -/
theorem read_takes {c c' : Cursor} {text : Except Issue String} (h : read c = .ok (text, c')) :
    ∃ cs, '"' :: c.rest = cs ++ c'.rest ∧ Spells text.toOption cs := by
  obtain ⟨ps, body, hrest, hps, ht⟩ := readFrom_takes Draft.sound_empty h
  refine ⟨'"' :: (body ++ ['"']), ?_, ?_⟩
  · rw [hrest]
    simp
  · rw [ht, Draft.finish_empty]
    exact .mk hps

theorem read_takesAll {text : Option String} {cs : List Char} (h : Spells text cs) :
    ∃ body, cs = '"' :: body ∧ ∀ rest offset, ∃ text' after,
      read ⟨body ++ rest, offset⟩ = .ok (text', ⟨rest, after⟩) ∧ text'.toOption = text := by
  obtain ⟨hps⟩ := h
  refine ⟨_, rfl, fun rest offset ↦ ?_⟩
  obtain ⟨text', after, hread, ht⟩ := readFrom_takesAll hps Draft.sound_empty offset rest
  refine ⟨text', after, ?_, ?_⟩
  · rw [List.append_assoc]
    exact hread
  · rw [ht, Draft.finish_empty]

theorem hexValue?_bound {c : Char} {n : Nat} (h : hexValue? c = some n) : 32 ≤ c.toNat := by
  simp only [hexValue?] at h
  repeat' split at h
  · omega
  · omega
  · omega
  · cases h

theorem unescaped?_bound {e c : Char} (h : unescaped? e = some c) : 32 ≤ e.toNat := by
  simp only [unescaped?] at h
  split at h
  · next he => rcases he with rfl | rfl | rfl <;> decide
  · repeat' split at h
    all_goals first | (subst e; decide) | cases h

theorem Piece.Spells.bound {p : Piece} {cs : List Char} (h : p.Spells cs) :
    ∀ c ∈ cs, 32 ≤ c.toNat := by
  cases h with
  | plain h => simpa using h
  | escape h => simpa using unescaped?_bound h
  | @unit a b c d n h =>
    simp only [unit?, bind, Option.bind_eq_some_iff] at h
    obtain ⟨_, ha, _, hb, _, hc, _, hd, -⟩ := h
    simp [hexValue?_bound ha, hexValue?_bound hb, hexValue?_bound hc, hexValue?_bound hd]

theorem SpellsAll.bound {ps : List Piece} {cs : List Char} (h : SpellsAll ps cs) :
    ∀ c ∈ cs, 32 ≤ c.toNat := by
  induction h with
  | nil => exact fun _ h ↦ nomatch h
  | cons h hs ih =>
    intro c hc
    rcases List.mem_append.1 hc with hc | hc
    · exact h.bound c hc
    · exact ih c hc

theorem Spells.bound {text : Option String} {cs : List Char} (h : Spells text cs) :
    ∀ c ∈ cs, 32 ≤ c.toNat := by
  obtain ⟨h⟩ := h
  simpa [or_imp, forall_and] using h.bound

/-- A character is written as one piece, which means the character wherever it stands. -/
theorem escaped_spells (c : Char) :
    ∃ p : Piece, p.Spells (escaped c) ∧ ∀ ps, textOf? (p :: ps) = (textOf? ps).map (c :: ·) := by
  by_cases hs : c ∈ ['"', '\\', '\x08', '\x0c', '\n', '\r', '\t']
  · refine ⟨.char c, ?_, fun _ ↦ rfl⟩
    simp only [List.mem_cons, List.not_mem_nil, or_false] at hs
    rcases hs with rfl | rfl | rfl | rfl | rfl | rfl | rfl <;> exact .escape rfl
  · simp only [List.mem_cons, List.not_mem_nil, or_false, not_or] at hs
    obtain ⟨hq, hb, h8, h12, hn, hr, ht⟩ := hs
    simp only [escaped, hq, hb, h8, h12, hn, hr, ht, if_false]
    split
    · next hc =>
      have hunit : ∀ n < 32, unit? '0' '0' (hexDigit (n / 16)) (hexDigit (n % 16)) = some n ∧
          isHigh n = false ∧ isLow n = false := by decide
      obtain ⟨hunit, hh, hl⟩ := hunit _ hc
      refine ⟨.unit c.toNat, .unit hunit, fun ps ↦ ?_⟩
      rw [textOf?_unit hh hl, Char.ofNat_toNat]
    · next hc => exact ⟨.char c, .plain (Nat.not_lt.1 hc) hq hb, fun _ ↦ rfl⟩

theorem writeChars_spells (s : String) : Spells (some s) (writeChars s) := by
  have hall : ∀ cs : List Char, ∃ ps, SpellsAll ps (cs.flatMap escaped) ∧ textOf? ps = some cs := by
    intro cs
    induction cs with
    | nil => exact ⟨[], .nil, rfl⟩
    | cons c cs ih =>
      obtain ⟨ps, hps, ht⟩ := ih
      obtain ⟨p, hp, htext⟩ := escaped_spells c
      refine ⟨p :: ps, .cons hp hps, ?_⟩
      rw [htext, ht]
      rfl
  obtain ⟨ps, hps, ht⟩ := hall s.toList
  have h := Spells.mk hps
  rw [ht] at h
  simpa [writeChars] using h

end ColumnFunctions.Json.Quoted
