import ColumnFunctions.Proofs.Json.Soundness

namespace ColumnFunctions.Json

theorem Node.readWord_append (word rest : List Char) (offset : Nat) :
    readWord word ⟨word ++ rest, offset⟩ = .ok ⟨rest, offset + word.length⟩ := by
  induction word generalizing offset with
  | nil => rfl
  | cons w word ih =>
    rw [List.cons_append, readWord, if_pos rfl, ih, List.length_cons]
    congr 2
    omega

theorem Cursor.skipSpace_append {b rest : List Char} (hb : Blanks b)
    (hr : ∀ c ∈ rest.head?, isSpace c = false) (offset : Nat) :
    (⟨b ++ rest, offset⟩ : Cursor).skipSpace = ⟨rest, offset + b.length⟩ :=
  skipSpaceFrom_blanks hb hr offset

theorem Node.ofWord_append (word rest : List Char) (offset : Nat) (node : Nat → Node) :
    ofWord word ⟨word ++ rest, offset⟩ node =
      (node (offset + word.length), .ok ⟨rest, offset + word.length⟩) := by
  rw [ofWord, readWord_append]

section Items

variable {α : Type} {faults : Faults} {close : Char} {closed : Nat → α} {broken : Fault → α}
  {item : Cursor → α × Except Fault Cursor} {first : Bool}

theorem readItems_close (hc : Cursor.isSpace close = false) {b : List Char} (hb : Blanks b)
    (offset : Nat) (rest : List Char) :
    readItems faults close closed broken item first ⟨b ++ close :: rest, offset⟩ =
      (closed (offset + b.length + 1), .ok ⟨rest, offset + b.length + 1⟩) := by
  rw [readItems, Cursor.skipSpace_append hb (by simpa using hc)]
  simp

/-- An item is read where one is to stand. -/
theorem readItems_lead (hcomma : close ≠ ',') {lead : List Char} (h : Lead first lead) {x : Char}
    (hx : Cursor.isSpace x = false) (hx' : x ≠ close) (offset : Nat) (rest : List Char) :
    ∃ offset', readItems faults close closed broken item first ⟨lead ++ x :: rest, offset⟩ =
      item ⟨x :: rest, offset'⟩ := by
  have hhead : ∀ c ∈ (x :: rest).head?, Cursor.isSpace c = false := by simpa using hx
  cases h with
  | first hb =>
    refine ⟨offset + lead.length, ?_⟩
    rw [readItems, Cursor.skipSpace_append hb hhead]
    simp [hx']
  | @next b b' hb hb' =>
    refine ⟨offset + b.length + 1 + b'.length, ?_⟩
    rw [readItems, List.append_assoc, List.cons_append,
      Cursor.skipSpace_append hb (by simp [Cursor.isSpace])]
    simp only [Cursor.skipSpaceFrom_blanks hb' hhead]
    simp [hx', hcomma.symm]

end Items

theorem readElement_of {fuel : Nat} {c next last : Cursor} {n : Node} {es : Elements} {t : Tree}
    {ts : List Tree} (hn : readNode fuel c = (n, .ok next)) (ht : n.tree? = some t)
    (hes : readElements false fuel next = (es, .ok last)) (hts : es.trees? = some ts) :
    ∃ es, readElement (fuel + 1) c = (es, .ok last) ∧ es.trees? = some (t :: ts) := by
  refine ⟨.cons c.offset n (givingUp Cursor.afterElement (.ok next)) es, ?_, ?_⟩
  · simp only [readElement, hn, hes]
  · simp [Elements.trees?, ht, hts]

theorem readMember_of {fuel offset : Nat} {next last : Cursor} {body b rest : List Char}
    {key : Except Issue String} {n : Node} {ms : Members} {t : Tree}
    {ts : List (Option String × Tree)} {after : Nat}
    (hk : Quoted.read ⟨body ++ (b ++ ':' :: rest), offset + 1⟩ =
      .ok (key, ⟨b ++ ':' :: rest, after⟩))
    (hb : Blanks b) (hn : readNode fuel ⟨rest, after + b.length + 1⟩ = (n, .ok next))
    (ht : n.tree? = some t) (hms : readMembers false fuel next = (ms, .ok last))
    (hts : ms.trees? = some ts) :
    ∃ ms, readMember (fuel + 1) ⟨'"' :: (body ++ (b ++ ':' :: rest)), offset⟩ = (ms, .ok last) ∧
      ms.trees? = some ((key.toOption, t) :: ts) := by
  refine ⟨.cons key (Cursor.mk (b ++ ':' :: rest) after).afterMember n
    (givingUp Cursor.afterMember (.ok next)) ms, ?_, ?_⟩
  · simp only [readMember, hk]
    rw [Cursor.skipSpace_append hb (by simp [Cursor.isSpace])]
    simp only [if_true, hn, hms]
  · simp [Members.trees?, ht, hts]

mutual

theorem Spells.read {t : Tree} {cs : List Char} (h : Spells t cs) (fuel offset : Nat)
    {b : List Char} (rest : List Char) (hfuel : 3 * cs.length ≤ fuel) (hb : Blanks b)
    (hr : Ends rest) :
    ∃ n after, readNode fuel ⟨b ++ (cs ++ rest), offset⟩ = (n, .ok ⟨rest, after⟩) ∧
      n.tree? = some t := by
  obtain ⟨x, cs', hcs, hx, -⟩ := h.head
  obtain ⟨fuel, rfl⟩ : ∃ f, fuel = f + 1 := by
    rw [hcs, List.length_cons] at hfuel
    exact ⟨fuel - 1, by omega⟩
  have hskip : (⟨b ++ (cs ++ rest), offset⟩ : Cursor).skipSpace = ⟨cs ++ rest, offset + b.length⟩ :=
    Cursor.skipSpace_append hb (by simp [hcs, hx]) offset
  rw [readNode, hskip]
  cases h with
  | null => exact ⟨_, _, Node.ofWord_append ['u', 'l', 'l'] rest _ _, rfl⟩
  | isTrue => exact ⟨_, _, Node.ofWord_append ['r', 'u', 'e'] rest _ _, rfl⟩
  | isFalse => exact ⟨_, _, Node.ofWord_append ['a', 'l', 's', 'e'] rest _ _, rfl⟩
  | @number n _ h =>
    have hread := Numeral.read_takesAll n cs rest (offset + b.length) h hr
    generalize hstop : offset + b.length + cs.length = stop at hread
    obtain ⟨c, cs, rfl, hc⟩ := h.head
    have hword : c ≠ 'n' ∧ c ≠ 't' ∧ c ≠ 'f' := by
      refine ⟨?_, ?_, ?_⟩
      all_goals
        rintro rfl
        simp at hc
    refine ⟨.number (n.value.mapError fun e ↦
      ⟨.numberOutOfRange, stop - e.unread⟩) stop, stop, ?_, ?_⟩
    · simp only [List.cons_append, hword, if_false, if_pos hc, Node.ofNumeral]
      rw [← List.cons_append, hread]
    · simp [Node.tree?]
  | string h =>
    obtain ⟨body, rfl, hread⟩ := Quoted.read_takesAll h
    obtain ⟨text, after, hread, ht⟩ := hread rest (offset + b.length + 1)
    refine ⟨.string text after, after, ?_, ?_⟩
    · simp [Node.ofQuoted, hread]
    · rw [Node.tree?, ht]
  | list h =>
    rw [List.length_cons] at hfuel
    obtain ⟨es, after, hes, hts⟩ := h.read fuel (offset + b.length + 1) rest (by omega)
    refine ⟨.list (offset + b.length) es, after, ?_, ?_⟩
    · simp [hes]
    · simp [Node.tree?, hts]
  | object h =>
    rw [List.length_cons] at hfuel
    obtain ⟨ms, after, hms, hts⟩ := h.read fuel (offset + b.length + 1) rest (by omega)
    refine ⟨.object (offset + b.length) ms, after, ?_, ?_⟩
    · simp [hms]
    · simp [Node.tree?, hts]

theorem SpellsElements.read {first : Bool} {ts : List Tree} {cs : List Char}
    (h : SpellsElements first ts cs) (fuel offset : Nat) (rest : List Char)
    (hfuel : 3 * cs.length ≤ fuel) :
    ∃ es after, readElements first fuel ⟨cs ++ rest, offset⟩ = (es, .ok ⟨rest, after⟩) ∧
      es.trees? = some ts := by
  cases h with
  | @close _ b hb =>
    obtain ⟨fuel, rfl⟩ : ∃ f, fuel = f + 1 := by
      rw [List.length_append, List.length_singleton] at hfuel
      exact ⟨fuel - 1, by omega⟩
    refine ⟨.close (offset + b.length + 1), offset + b.length + 1, ?_, rfl⟩
    rw [readElements_succ, List.append_assoc]
    exact readItems_close rfl hb offset rest
  | @cons _ lead t cs ts more hl h hs =>
    have hmore := hs.length_pos
    simp only [List.length_append] at hfuel
    obtain ⟨x, cs', hcs, hx, hx'⟩ := h.head
    have hlen : cs.length = cs'.length + 1 := congrArg List.length hcs
    obtain ⟨fuel, rfl⟩ : ∃ f, fuel = f + 2 := ⟨fuel - 2, by omega⟩
    obtain ⟨o, ho⟩ := readItems_lead (by decide) hl hx hx' offset (cs' ++ (more ++ rest))
    obtain ⟨n, after, hn, ht⟩ := h.read fuel o (more ++ rest) (by omega) blanks_nil
      (hs.ends rest)
    obtain ⟨es, last, hes, hts⟩ := hs.read fuel after rest (by omega)
    obtain ⟨es, hread, htrees⟩ := readElement_of hn ht hes hts
    refine ⟨es, last, ?_, htrees⟩
    rw [List.nil_append, hcs, List.cons_append] at hread
    rw [hcs, List.append_assoc, List.append_assoc, List.cons_append, readElements_succ, ho, hread]

theorem SpellsMembers.read {first : Bool} {ms : List (Option String × Tree)} {cs : List Char}
    (h : SpellsMembers first ms cs) (fuel offset : Nat) (rest : List Char)
    (hfuel : 3 * cs.length ≤ fuel) :
    ∃ es after, readMembers first fuel ⟨cs ++ rest, offset⟩ = (es, .ok ⟨rest, after⟩) ∧
      es.trees? = some ms := by
  cases h with
  | @close _ b hb =>
    obtain ⟨fuel, rfl⟩ : ∃ f, fuel = f + 1 := by
      rw [List.length_append, List.length_singleton] at hfuel
      exact ⟨fuel - 1, by omega⟩
    refine ⟨.close (offset + b.length + 1), offset + b.length + 1, ?_, rfl⟩
    rw [readMembers_succ, List.append_assoc]
    exact readItems_close rfl hb offset rest
  | @cons _ lead key k b b' t cs ms more hl hk hb hb' h hs =>
    have hmore := hs.length_pos
    simp only [List.length_append, List.length_cons] at hfuel
    obtain ⟨fuel, rfl⟩ : ∃ f, fuel = f + 2 := ⟨fuel - 2, by omega⟩
    obtain ⟨body, rfl, hquoted⟩ := Quoted.read_takesAll hk
    have hquote : Cursor.isSpace '"' = false ∧ '"' ≠ '\x7d' := by decide
    obtain ⟨o, ho⟩ := readItems_lead (by decide) hl hquote.1 hquote.2 offset
      (body ++ (b ++ ':' :: (b' ++ (cs ++ (more ++ rest)))))
    obtain ⟨key', after, hkey, rfl⟩ := hquoted (b ++ ':' :: (b' ++ (cs ++ (more ++ rest)))) (o + 1)
    obtain ⟨n, next, hn, ht⟩ := h.read fuel (after + b.length + 1) (more ++ rest) (by omega) hb'
      (hs.ends rest)
    obtain ⟨ms, last, hms, hts⟩ := hs.read fuel next rest (by omega)
    obtain ⟨ms, hread, htrees⟩ := readMember_of hkey hb hn ht hms hts
    refine ⟨ms, last, ?_, htrees⟩
    simp only [List.append_assoc, List.cons_append, readMembers_succ]
    rw [ho, hread]

end

theorem Blanks.ends_all {b : List Char} (hb : Blanks b) : Ends b := by
  have h : Ends (b ++ []) := hb.ends fun _ h ↦ nomatch h
  rwa [List.append_nil] at h

theorem Cursor.skipSpace_eq_nil {c : Cursor} : c.skipSpace.rest = [] ↔ Blanks c.rest := by
  constructor
  · intro h
    obtain ⟨b, hrest, hb⟩ := skipSpaceFrom_spec c.offset c.rest
    rw [skipSpace] at h
    rw [h, List.append_nil] at hrest
    rwa [hrest]
  · intro hb
    have h := skipSpaceFrom_blanks hb (fun d (h : d ∈ [].head?) ↦ nomatch h) c.offset
    rw [List.append_nil] at h
    rw [skipSpace, h]

/-- The document of a text has a tree and nothing after it exactly if the text spells the tree. -/
theorem spellsText_iff {t : Tree} {text : String} :
    SpellsText t text.toList ↔
      (Document.ofText text).node.tree? = some t ∧ (Document.ofText text).excess = none := by
  have hfollows := (sound (3 * text.toList.length + 3)).node ⟨text.toList, 0⟩
  simp only [Document.ofText, Cursor.start]
  constructor
  · intro h
    generalize text.toList = cs at h
    obtain ⟨hb, hb', h⟩ := h
    next b b' cs =>
    obtain ⟨n, after, hn, ht⟩ := h.read (3 * (b ++ (cs ++ b')).length + 3) 0 b'
      (by simp only [List.length_append]; omega) hb hb'.ends_all
    have hskip : (⟨b', after⟩ : Cursor).skipSpace.rest = [] := Cursor.skipSpace_eq_nil.2 hb'
    refine ⟨?_, ?_⟩
    · rw [hn]
      exact ht
    · rw [hn]
      simp only [hskip]
  · rcases hr : readNode (3 * text.toList.length + 3) ⟨text.toList, 0⟩ with ⟨n, after⟩
    rw [hr] at hfollows
    rintro ⟨ht, he⟩
    cases after with
    | error f =>
      have hn : n.tree? = none := hfollows.error f rfl
      exact absurd (ht.symm.trans hn) (by simp)
    | ok c =>
      obtain ⟨t', cs, ht', htext, h⟩ := hfollows.ok c rfl
      obtain rfl : t' = t := Option.some.inj (ht'.symm.trans ht)
      dsimp only at htext he
      have hb' : Blanks c.rest := by
        rw [← Cursor.skipSpace_eq_nil]
        split at he
        · assumption
        · cases he
      rw [htext]
      obtain ⟨hb, h⟩ := h
      rw [List.append_assoc]
      exact .mk hb hb' h

/-- A reader makes of a text what it makes of the tree that the text spells. -/
theorem readDocument_eq_ok {α : Type} {read : Nat → Node → Except Complaint α}
    (h : ByTree (read maxDepth)) {text : String} {x : α} :
    readDocument read text = .ok x ↔
      ∃ t, SpellsText t text.toList ∧ read maxDepth t.node = .ok x := by
  simp only [spellsText_iff, ← toOption_eq_some]
  simp only [readDocument]
  generalize Document.ofText text = document
  have hn := h document.node
  constructor
  · intro hx
    cases hr : read maxDepth document.node with
    | error c =>
      rw [hr] at hx
      cases hx
    | ok y =>
      rw [hr] at hx hn
      cases ht : document.node.tree? with
      | none =>
        rw [ht] at hn
        cases hn
      | some t =>
        cases he : document.excess with
        | some i =>
          rw [he] at hx
          cases hx
        | none =>
          rw [he] at hx
          cases hx
          rw [ht] at hn
          exact ⟨t, ⟨rfl, rfl⟩, hn.symm⟩
  · rintro ⟨t, ⟨ht, he⟩, hx⟩
    rw [ht, Option.bind_some, hx, toOption_eq_some] at hn
    rw [hn, he]
    rfl

end ColumnFunctions.Json
