import ColumnFunctions.Proofs.Json.Grammar

namespace ColumnFunctions.Json

theorem Node.readWord_eq_ok {word : List Char} {c c' : Cursor} (h : readWord word c = .ok c') :
    c.rest = word ++ c'.rest := by
  fun_induction readWord word c with
  | case1 => cases h; rfl
  | case2 => cases h
  | case3 w word rest offset ih => rw [List.cons_append, ← ih h]
  | case4 => cases h

/-- A reading makes a tree of what it takes from the front of a text, which is written in a certain
way, or else makes no tree at all. -/
structure Follows {α β : Type} (Written : β → List Char → Prop) (tree? : α → Option β)
    (text : List Char) (r : α × Except Fault Cursor) : Prop where
  ok : ∀ c, r.2 = .ok c → ∃ t cs, tree? r.1 = some t ∧ text = cs ++ c.rest ∧ Written t cs
  error : ∀ f, r.2 = .error f → tree? r.1 = none

namespace Follows

variable {α α' β β' : Type} {Written : β → List Char → Prop} {Written' : β' → List Char → Prop}
  {tree? : α → Option β} {tree?' : α' → Option β'} {text : List Char}

theorem broken {broken : Fault → α} {f : Fault} (h : tree? (broken f) = none) :
    Follows Written tree? text (breakAt broken f) :=
  ⟨fun _ h ↦ (nomatch h), fun _ _ ↦ h⟩

theorem wrap {a : α} {after : Except Fault Cursor} (h : Follows Written tree? text (a, after))
    (lead : List Char) (node : α → α') (g : β → β') (ht : tree?' (node a) = (tree? a).map g)
    (hw : ∀ t cs, Written t cs → Written' (g t) (lead ++ cs)) :
    Follows Written' tree?' (lead ++ text) (node a, after) := by
  constructor
  · intro c hc
    obtain ⟨t, cs, ha, rfl, hcs⟩ := h.ok c hc
    refine ⟨g t, lead ++ cs, ?_, (List.append_assoc _ _ _).symm, hw t cs hcs⟩
    dsimp only at ha ⊢
    rw [ht, ha]
    rfl
  · intro f hf
    have ha := h.error f hf
    dsimp only at ha ⊢
    rw [ht, ha]
    rfl

theorem prepend {Written' : β → List Char → Prop} {r : α × Except Fault Cursor}
    (h : Follows Written tree? text r) (lead : List Char)
    (hw : ∀ t cs, Written t cs → Written' t (lead ++ cs)) :
    Follows Written' tree? (lead ++ text) r :=
  wrap h lead id id (by simp) hw

/-- Items follow a grammar behind a bracket if each of them does with those after it. -/
theorem items {Written : Bool → List β → List Char → Prop} {Item : List β → List Char → Prop}
    {tree? : α → Option (List β)} {faults : Faults} {close : Char} {closed : Nat → α}
    {broken : Fault → α} {item : Cursor → α × Except Fault Cursor}
    (hitem : ∀ c, Follows Item tree? c.rest (item c)) (hbroken : ∀ f, tree? (broken f) = none)
    (hclosed : ∀ stop, tree? (closed stop) = some [])
    (hclose : ∀ {first b}, Blanks b → Written first [] (b ++ [close]))
    (hlead : ∀ {first lead ts cs}, Item ts cs → Lead first lead → Written first ts (lead ++ cs))
    (first : Bool) (c : Cursor) :
    Follows (Written first) tree? c.rest
      (readItems faults close closed broken item first c) := by
  obtain ⟨b, hrest, hb⟩ := Cursor.skipSpaceFrom_spec c.offset c.rest
  simp only [readItems]
  change c.rest = b ++ c.skipSpace.rest at hrest
  rw [hrest]
  generalize c.skipSpace = c at *
  cases hc : c.rest with
  | nil => exact .broken (hbroken _)
  | cons x rest =>
    dsimp only
    split
    · next hx =>
      subst hx
      constructor
      · intro c' hc'
        cases hc'
        exact ⟨[], b ++ [x], hclosed _, by simp, hclose hb⟩
      · exact fun _ h ↦ nomatch h
    split
    · next hfirst =>
      subst hfirst
      rw [← hc]
      exact (hitem c).prepend b fun _ _ h ↦ hlead h (.first hb)
    split
    · next hfirst hx =>
      subst hx
      obtain rfl : first = false := by simpa using hfirst
      obtain ⟨b', hrest', hb'⟩ := Cursor.skipSpaceFrom_spec (c.offset + 1) rest
      generalize Cursor.skipSpaceFrom (c.offset + 1) rest = c' at *
      have htext : b ++ ',' :: rest = (b ++ ',' :: b') ++ c'.rest := by
        rw [hrest']
        simp
      rw [htext]
      cases hc' : c'.rest with
      | nil => exact .broken (hbroken _)
      | cons y rest' =>
        dsimp only
        split
        · exact .broken (hbroken _)
        · rw [← hc']
          exact (hitem c').prepend _ fun _ _ h ↦ hlead h (.next hb hb')
    · exact .broken (hbroken _)

end Follows

inductive SpellsElement : List Tree → List Char → Prop
  | mk {t : Tree} {ts : List Tree} {cs rest : List Char} (h : SpellsAfterBlanks t cs)
      (hs : SpellsElements false ts rest) : SpellsElement (t :: ts) (cs ++ rest)

inductive SpellsMember : List (Option String × Tree) → List Char → Prop
  | mk {key : Option String} {t : Tree} {ms : List (Option String × Tree)} {k b cs rest : List Char}
      (hk : Quoted.Spells key k) (hb : Blanks b) (h : SpellsAfterBlanks t cs)
      (hs : SpellsMembers false ms rest) :
      SpellsMember ((key, t) :: ms) (k ++ (b ++ ':' :: (cs ++ rest)))

theorem SpellsElement.after {first : Bool} {lead cs : List Char} {ts : List Tree}
    (h : SpellsElement ts cs) (hl : Lead first lead) : SpellsElements first ts (lead ++ cs) := by
  obtain ⟨⟨hb, h⟩, hs⟩ := h
  rw [List.append_assoc, ← List.append_assoc]
  exact .cons (hl.append hb) h hs

theorem SpellsMember.after {first : Bool} {lead cs : List Char} {ms : List (Option String × Tree)}
    (h : SpellsMember ms cs) (hl : Lead first lead) : SpellsMembers first ms (lead ++ cs) := by
  obtain ⟨hk, hb, ⟨hb', h⟩, hs⟩ := h
  rw [List.append_assoc]
  exact .cons hl hk hb hb' h hs

structure Sound (fuel : Nat) : Prop where
  node : ∀ c, Follows SpellsAfterBlanks Node.tree? c.rest (readNode fuel c)
  elements : ∀ first c,
    Follows (SpellsElements first) Elements.trees? c.rest (readElements first fuel c)
  element : ∀ c, Follows SpellsElement Elements.trees? c.rest (readElement fuel c)
  members : ∀ first c,
    Follows (SpellsMembers first) Members.trees? c.rest (readMembers first fuel c)
  member : ∀ c, Follows SpellsMember Members.trees? c.rest (readMember fuel c)

namespace Sound

theorem ofWord (word : List Char) (node : Nat → Node) (t : Tree)
    (h : ∀ stop, (node stop).tree? = some t) (c : Cursor) :
    Follows (fun t' cs ↦ t' = t ∧ cs = word) Node.tree? c.rest (Node.ofWord word c node) := by
  simp only [Node.ofWord]
  split
  · next c' hc =>
    constructor
    · rintro _ ⟨⟩
      exact ⟨t, word, h _, Node.readWord_eq_ok hc, rfl, rfl⟩
    · exact fun _ h ↦ nomatch h
  · exact .broken rfl

theorem ofNumeral (c : Cursor) : Follows Spells Node.tree? c.rest (Node.ofNumeral c) := by
  simp only [Node.ofNumeral]
  split
  · exact .broken rfl
  · next n c' hc =>
    obtain ⟨cs, hrest, hcs⟩ := Numeral.read_takes _ _ _ hc
    constructor
    · rintro _ ⟨⟩
      refine ⟨_, cs, ?_, hrest, .number hcs⟩
      simp [Node.tree?]
    · exact fun _ h ↦ nomatch h

theorem ofQuoted (c : Cursor) : Follows Spells Node.tree? ('"' :: c.rest) (Node.ofQuoted c) := by
  simp only [Node.ofQuoted]
  split
  · exact .broken rfl
  · next text c' hc =>
    obtain ⟨cs, hrest, hcs⟩ := Quoted.read_takes hc
    constructor
    · rintro _ ⟨⟩
      exact ⟨_, cs, rfl, hrest, .string hcs⟩
    · exact fun _ h ↦ nomatch h

variable {fuel : Nat}

theorem readNode (h : Sound fuel) (c : Cursor) :
    Follows SpellsAfterBlanks Node.tree? c.rest (readNode (fuel + 1) c) := by
  obtain ⟨b, hrest, hb⟩ := Cursor.skipSpaceFrom_spec c.offset c.rest
  simp only [Json.readNode]
  change c.rest = b ++ c.skipSpace.rest at hrest
  rw [hrest]
  generalize c.skipSpace = c at *
  suffices Follows Spells Node.tree? c.rest _ from this.prepend b fun _ _ h ↦ .mk hb h
  cases hc : c.rest with
  | nil => exact .broken rfl
  | cons x rest =>
    dsimp only
    split
    · next hx =>
      subst hx
      refine (ofWord ['u', 'l', 'l'] .null .null (fun _ ↦ rfl) ⟨rest, _⟩).prepend ['n'] ?_
      rintro _ _ ⟨rfl, rfl⟩
      exact .null
    split
    · next hx =>
      subst hx
      refine (ofWord ['r', 'u', 'e'] (.bool true) (.bool true) (fun _ ↦ rfl) ⟨rest, _⟩).prepend
        ['t'] ?_
      rintro _ _ ⟨rfl, rfl⟩
      exact .isTrue
    split
    · next hx =>
      subst hx
      refine (ofWord ['a', 'l', 's', 'e'] (.bool false) (.bool false) (fun _ ↦ rfl)
        ⟨rest, _⟩).prepend ['f'] ?_
      rintro _ _ ⟨rfl, rfl⟩
      exact .isFalse
    split
    · rw [← hc]
      exact ofNumeral c
    split
    · next hx =>
      subst hx
      exact ofQuoted ⟨rest, _⟩
    split
    · next hx =>
      subst hx
      exact (h.elements true ⟨rest, c.offset + 1⟩).wrap ['['] (Node.list c.offset) Tree.list rfl
        fun _ _ h ↦ Spells.list h
    split
    · next hx =>
      subst hx
      exact (h.members true ⟨rest, c.offset + 1⟩).wrap ['\x7b'] (Node.object c.offset)
        Tree.object rfl fun _ _ h ↦ Spells.object h
    · exact .broken rfl

theorem readElements (h : Sound fuel) (first : Bool) (c : Cursor) :
    Follows (SpellsElements first) Elements.trees? c.rest (readElements first (fuel + 1) c) := by
  rw [readElements_succ]
  exact Follows.items h.element (fun _ ↦ rfl) (fun _ ↦ rfl) SpellsElements.close
    SpellsElement.after first c

theorem readElement (h : Sound fuel) (c : Cursor) :
    Follows SpellsElement Elements.trees? c.rest (readElement (fuel + 1) c) := by
  have hn := h.node c
  simp only [Json.readElement]
  rcases hr : Json.readNode fuel c with ⟨n, after⟩
  rw [hr] at hn
  cases after with
  | error f =>
    have ht : n.tree? = none := hn.error f rfl
    refine ⟨fun _ h ↦ (nomatch h), fun _ _ ↦ ?_⟩
    simp [Elements.trees?, ht]
  | ok next =>
    obtain ⟨t, cs, ht, hrest, hcs⟩ := hn.ok next rfl
    have hes := h.elements false next
    rw [hrest]
    dsimp only at ht ⊢
    refine Follows.wrap hes cs (Elements.cons c.offset n _) (t :: ·) ?_ fun _ _ h ↦
      SpellsElement.mk hcs h
    simp [Elements.trees?, ht]

theorem readMembers (h : Sound fuel) (first : Bool) (c : Cursor) :
    Follows (SpellsMembers first) Members.trees? c.rest (readMembers first (fuel + 1) c) := by
  rw [readMembers_succ]
  exact Follows.items h.member (fun _ ↦ rfl) (fun _ ↦ rfl) SpellsMembers.close
    SpellsMember.after first c

theorem readMember (h : Sound fuel) (c : Cursor) :
    Follows SpellsMember Members.trees? c.rest (readMember (fuel + 1) c) := by
  simp only [Json.readMember]
  split
  rotate_left
  · exact .broken rfl
  next rest hc =>
  rw [hc]
  split
  · exact .broken rfl
  next key c₁ hkey =>
  obtain ⟨k, hk, hks⟩ := Quoted.read_takes hkey
  dsimp only at hk
  rw [hk]
  obtain ⟨b, hrest, hb⟩ := Cursor.skipSpaceFrom_spec c₁.offset c₁.rest
  change c₁.rest = b ++ c₁.skipSpace.rest at hrest
  rw [hrest]
  generalize c₁.skipSpace = c₂ at *
  cases hc₂ : c₂.rest with
  | nil => exact .broken rfl
  | cons x rest =>
    dsimp only
    split
    rotate_left
    · exact .broken rfl
    next hx =>
    subst hx
    have hn := h.node ⟨rest, c₂.offset + 1⟩
    rcases hr : Json.readNode fuel ⟨rest, c₂.offset + 1⟩ with ⟨n, after⟩
    rw [hr] at hn
    cases after with
    | error f =>
      have ht : n.tree? = none := hn.error f rfl
      refine ⟨fun _ h ↦ (nomatch h), fun _ _ ↦ ?_⟩
      simp [Members.trees?, ht]
    | ok next =>
      obtain ⟨t, cs, ht, hrest, hcs⟩ := hn.ok next rfl
      have hms := h.members false next
      dsimp only at ht hrest ⊢
      have hlead : k ++ (b ++ ':' :: rest) = (k ++ (b ++ ':' :: cs)) ++ next.rest := by
        rw [hrest]
        simp
      rw [hlead]
      refine Follows.wrap hms _ (Members.cons key _ n _) ((key.toOption, t) :: ·) ?_ ?_
      · simp [Members.trees?, ht]
      · intro ms cs' h
        have hmember := SpellsMember.mk hks hb hcs h
        simpa using hmember

end Sound

/-- Whatever the reader makes a tree of spells the tree. -/
theorem sound (fuel : Nat) : Sound fuel := by
  induction fuel with
  | zero =>
    exact ⟨fun _ ↦ .broken rfl, fun _ _ ↦ .broken rfl, fun _ ↦ .broken rfl,
      fun _ _ ↦ .broken rfl, fun _ ↦ .broken rfl⟩
  | succ fuel ih =>
    exact ⟨ih.readNode, ih.readElements, ih.readElement, ih.readMembers, ih.readMember⟩

end ColumnFunctions.Json
