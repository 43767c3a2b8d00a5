import ColumnFunctions.Deflate.Inflate

namespace ColumnFunctions.Deflate

class Unread (ρ : Type) where
  append : ρ → Bytes → ρ

open Unread (append)

instance : Unread Bytes := ⟨(· ++ ·)⟩

instance : Unread BitSource := ⟨fun s more ↦ ⟨s.held, s.rest ++ more⟩⟩

instance {α ρ : Type} [Unread ρ] : Unread (α × ρ) := ⟨fun x more ↦ (x.1, append x.2 more)⟩

section Steady

variable {α β ρ τ υ : Type} [Unread ρ] [Unread τ] [Unread υ]

/-- What a reader makes of something stays the same when more follows, unless the end was met, and
when some of what it leaves is not there. -/
structure SteadyAt (read : ρ → Except Interruption τ) (x : ρ) : Prop where
  longer : ∀ more, read x = .error .truncated ∨ read (append x more) = (read x).map (append · more)
  shorter : ∀ y more, read x = .ok (append y more) → ∃ z, x = append z more ∧ read z = .ok y

def Steady (read : ρ → Except Interruption τ) : Prop := ∀ x, SteadyAt read x

theorem SteadyAt.bind {read : ρ → Except Interruption τ} {next : τ → Except Interruption υ} {x : ρ}
    (h : SteadyAt read x) (hn : ∀ y, read x = .ok y → SteadyAt next y) :
    SteadyAt (fun x ↦ read x >>= next) x := by
  constructor
  · intro more
    cases hr : read x with
    | error e =>
      rcases h.longer more with ht | ht
      · rw [hr] at ht
        cases ht
        exact .inl rfl
      · rw [ht, hr]
        exact .inr rfl
    | ok y =>
      rcases h.longer more with ht | ht
      · rw [hr] at ht
        cases ht
      · rw [ht, hr]
        exact (hn y hr).longer more
  · intro z more hz
    obtain ⟨y, hr, hy⟩ := bind_eq_ok.1 hz
    obtain ⟨y', rfl, hy'⟩ := (hn y hr).shorter z more hy
    obtain ⟨x', rfl, hr'⟩ := h.shorter y' more hr
    exact ⟨x', rfl, bind_eq_ok.2 ⟨y', hr', hy'⟩⟩

theorem Steady.bind {read : ρ → Except Interruption τ} {next : τ → Except Interruption υ}
    (h : Steady read) (hn : Steady next) : Steady fun x ↦ read x >>= next :=
  fun x ↦ (h x).bind fun y _ ↦ hn y

theorem SteadyAt.of_snd {next : α × ρ → Except Interruption τ} {a : α} {x : ρ}
    (h : SteadyAt (fun x ↦ next (a, x)) x) : SteadyAt next (a, x) := by
  refine ⟨h.longer, fun y more hy ↦ ?_⟩
  obtain ⟨z, rfl, hz⟩ := h.shorter y more hy
  exact ⟨(a, z), rfl, hz⟩

theorem Steady.of_fst {next : α × ρ → Except Interruption τ} (h : ∀ a, Steady fun t ↦ next (a, t)) :
    Steady next := fun (a, x) ↦ (h a x).of_snd

theorem Steady.error (e : Interruption) : Steady fun _ : ρ ↦ (Except.error e : Except _ τ) :=
  fun _ ↦ ⟨fun _ ↦ .inr rfl, fun _ _ h ↦ nomatch h⟩

theorem Steady.pure (a : α) : Steady fun x : ρ ↦ (Except.ok (a, x) : Except Interruption _) := by
  refine fun x ↦ ⟨fun _ ↦ .inr rfl, fun y more h ↦ ?_⟩
  cases h
  exact ⟨y.2, rfl, rfl⟩

theorem Steady.pure_pair (a : α) (b : β) :
    Steady fun x : ρ ↦ (Except.ok (a, b, x) : Except Interruption _) :=
  (Steady.pure b).bind (Steady.pure a)

theorem Steady.ite {p : Prop} [Decidable p] {read read' : ρ → Except Interruption τ}
    (h : Steady read) (h' : Steady read') : Steady fun x ↦ if p then read x else read' x := by
  by_cases hp : p
  · simpa only [if_pos hp] using h
  · simpa only [if_neg hp] using h'

end Steady

namespace BitSource

theorem steady_next : Steady next := by
  rintro ⟨held, rest⟩
  cases held with
  | cons b held =>
    refine ⟨fun _ ↦ .inr rfl, fun y more h ↦ ?_⟩
    cases h
    exact ⟨⟨y.1 :: y.2.held, y.2.rest⟩, rfl, rfl⟩
  | nil =>
    cases rest with
    | nil => exact ⟨fun _ ↦ .inl rfl, fun _ _ h ↦ nomatch h⟩
    | cons c rest =>
      refine ⟨fun _ ↦ .inr rfl, fun y more h ↦ ?_⟩
      obtain ⟨b, held, left⟩ := y
      cases h
      exact ⟨⟨[], c :: left⟩, rfl, rfl⟩

theorem steady_number (count : Nat) : Steady (number count) := by
  induction count with
  | zero => exact Steady.pure 0
  | succ count ih =>
    refine steady_next.bind (.of_fst fun b ↦ ih.bind (.of_fst fun n ↦ ?_))
    exact Steady.pure (b.toNat + 2 * n)

theorem steady_copy (out : Array UInt8) (count : Nat) : Steady (copy out count) := by
  induction count generalizing out with
  | zero => exact Steady.pure out
  | succ count ih =>
    intro b
    cases b with
    | nil => exact ⟨fun _ ↦ .inl rfl, fun _ _ h ↦ nomatch h⟩
    | cons c b =>
      refine ⟨(ih (out.push c) b).longer, fun y more h ↦ ?_⟩
      obtain ⟨z, rfl, hz⟩ := (ih (out.push c) b).shorter y more h
      exact ⟨c :: z, rfl, hz⟩

theorem steady_ofBytes : Steady fun b ↦ .ok (ofBytes b) := by
  refine fun b ↦ ⟨fun _ ↦ .inr rfl, fun s more h ↦ ?_⟩
  obtain ⟨held, rest⟩ := s
  cases h
  exact ⟨rest, rfl, rfl⟩

theorem steady_rest : Steady fun s : BitSource ↦ .ok s.rest := by
  rintro ⟨held, rest⟩
  refine ⟨fun _ ↦ .inr rfl, fun b more h ↦ ?_⟩
  cases h
  exact ⟨⟨held, b⟩, rfl, rfl⟩

theorem steady_align : Steady fun s ↦ .ok (align s) := steady_rest.bind steady_ofBytes

end BitSource

theorem Code.steady_walk (c : Code) : Steady c.walk := by
  induction c with
  | missing => exact Steady.error .corrupt
  | leaf symbol => exact Steady.pure symbol
  | fork zero one hz ho =>
    have h : (fork zero one).walk =
        fun s ↦ s.next >>= fun r ↦ if r.1 then one.walk r.2 else zero.walk r.2 := by
      funext s
      rw [walk]
      obtain _ | ⟨b, t⟩ := s.next
      · rfl
      · cases b <;> rfl
    rw [h]
    exact BitSource.steady_next.bind (.of_fst fun b ↦ Steady.ite (p := b = true) ho hz)

theorem Code.steady_read (c : Code) : Steady c.read := by
  have h : c.read = fun s ↦ s.next >>= fun r ↦ (c.branch r.1).walk r.2 := by
    funext s
    rw [read]
    cases s.next <;> rfl
  rw [h]
  exact BitSource.steady_next.bind (.of_fst fun b ↦ (c.branch b).steady_walk)

theorem Range.steady_read (ranges : List Range) (index : Nat) : Steady (read ranges index) := by
  cases hr : ranges[index]? with
  | none =>
    have h : read ranges index = fun _ ↦ .error .corrupt := by
      funext s
      simp only [read, hr]
    rw [h]
    exact Steady.error .corrupt
  | some r =>
    have h : read ranges index =
        fun s ↦ s.number r.extra >>= fun n ↦ .ok (r.base + n.1, n.2) := by
      funext s
      simp only [read, hr]
      cases s.number r.extra <;> rfl
    rw [h]
    exact (BitSource.steady_number r.extra).bind (.of_fst fun n ↦ Steady.pure (r.base + n))

theorem steady_readCopy (distances : Code) (symbol : Nat) : Steady (readCopy distances symbol) := by
  refine (Range.steady_read lengthRanges (symbol - 257)).bind (.of_fst fun length ↦ ?_)
  refine distances.steady_read.bind (.of_fst fun index ↦ ?_)
  refine (Range.steady_read distanceRanges index).bind (.of_fst fun distance ↦ ?_)
  exact Steady.pure_pair length distance

theorem steady_readToken (literals distances : Code) : Steady (readToken literals distances) := by
  refine literals.steady_read.bind (.of_fst fun symbol ↦ ?_)
  refine Steady.ite (Steady.pure _) (Steady.ite (Steady.pure _) ?_)
  refine (steady_readCopy distances symbol).bind (.of_fst fun length ↦ .of_fst fun distance ↦ ?_)
  exact Steady.pure (some (Token.copy length distance))

theorem readTokens_eq (literals distances : Code) (out : Array UInt8) (s : BitSource) :
    readTokens literals distances out s =
      readToken literals distances s >>= fun (token, s) ↦
        match token with
        | none => .ok (out, s)
        | some token => readTokens literals distances (token.expand out) s := by
  rw [readTokens]
  split
  · next h => rw [h]; rfl
  · next h => rw [h]; rfl
  · next h => rw [h]; rfl

theorem steady_readTokens (literals distances : Code) (out : Array UInt8) :
    Steady (readTokens literals distances out) := by
  intro s
  induction hn : s.size using Nat.strongRecOn generalizing out s with
  | _ n ih =>
    rw [funext (readTokens_eq literals distances out)]
    refine (steady_readToken literals distances s).bind fun (token, t) ht ↦ .of_snd ?_
    have hlt := size_readToken_lt ht
    cases token with
    | none => exact Steady.pure out t
    | some token => exact ih t.size (hn ▸ hlt) (token.expand out) t rfl

theorem steady_readStored (out : Array UInt8) : Steady (readStored out) := by
  have halign : Steady fun s : BitSource ↦ s.align.number 16 :=
    BitSource.steady_align.bind (BitSource.steady_number 16)
  refine halign.bind (.of_fst fun count ↦ ?_)
  refine (BitSource.steady_number 16).bind (.of_fst fun check ↦ ?_)
  refine Steady.ite ?_ (Steady.error .corrupt)
  have hcopy : Steady fun s : BitSource ↦ BitSource.copy out count s.rest :=
    BitSource.steady_rest.bind (BitSource.steady_copy out count)
  exact hcopy.bind (.of_fst fun out ↦ BitSource.steady_ofBytes.bind (Steady.pure out))

theorem steady_readLengthCode (count : Nat) : Steady (readLengthCode count) := by
  have hgo : ∀ order lengths, Steady (readLengthCode.go order lengths) := by
    intro order
    induction order with
    | nil => exact fun lengths ↦ Steady.pure lengths
    | cons i order ih =>
      exact fun lengths ↦ (BitSource.steady_number 3).bind (.of_fst fun n ↦ ih (lengths.set i n))
  exact hgo _ _

theorem steady_readLengths (code : Code) (lengths : List Nat) :
    Steady (readLengths code lengths) := by
  have hrepeat : ∀ (count : Nat) (more : Nat → List Nat),
      Steady fun s : BitSource ↦ s.number count >>= fun n ↦ .ok (more n.1, n.2) :=
    fun count more ↦ (BitSource.steady_number count).bind (.of_fst fun n ↦ Steady.pure (more n))
  refine code.steady_read.bind (.of_fst fun symbol ↦ ?_)
  refine Steady.ite (Steady.pure [symbol]) (Steady.ite ?_ (Steady.ite ?_ ?_))
  · cases lengths.getLast? with
    | none => exact Steady.error .corrupt
    | some last => exact hrepeat 2 fun n ↦ List.replicate (3 + n) last
  · exact hrepeat 3 fun n ↦ List.replicate (3 + n) 0
  · exact hrepeat 7 fun n ↦ List.replicate (11 + n) 0

theorem readAllLengths_eq (code : Code) (count : Nat) (lengths : List Nat) (s : BitSource) :
    readAllLengths code count lengths s =
      if lengths.length < count then
        readLengths code lengths s >>= fun (more, s) ↦ readAllLengths code count (lengths ++ more) s
      else if lengths.length = count then .ok (lengths, s) else .error .corrupt := by
  rw [readAllLengths]
  split
  · split
    · next h => rw [h]; rfl
    · next h => rw [h]; rfl
  · rfl

theorem steady_readAllLengths (code : Code) (count : Nat) (lengths : List Nat) :
    Steady (readAllLengths code count lengths) := by
  intro s
  induction hn : s.size using Nat.strongRecOn generalizing lengths s with
  | _ n ih =>
    rw [funext (readAllLengths_eq code count lengths)]
    by_cases hlt : lengths.length < count
    · simp only [if_pos hlt]
      refine (steady_readLengths code lengths s).bind fun (more, t) ht ↦ .of_snd ?_
      exact ih t.size (hn ▸ size_readLengths_lt ht) (lengths ++ more) t rfl
    · simp only [if_neg hlt]
      exact Steady.ite (Steady.pure lengths) (Steady.error .corrupt) s

theorem steady_codeOf {τ : Type} [Unread τ] (lengths : List Nat)
    {next : Code → BitSource → Except Interruption τ} (h : ∀ code, Steady (next code)) :
    Steady fun s ↦ codeOf lengths >>= fun code ↦ next code s := by
  cases codeOf lengths with
  | error e => exact Steady.error e
  | ok code => exact h code

theorem steady_readCodes : Steady readCodes := by
  refine (BitSource.steady_number 5).bind (.of_fst fun literals ↦ ?_)
  refine (BitSource.steady_number 5).bind (.of_fst fun distances ↦ ?_)
  refine (BitSource.steady_number 4).bind (.of_fst fun count ↦ ?_)
  refine Steady.ite (Steady.error .corrupt) ?_
  refine (steady_readLengthCode (count + 4)).bind (.of_fst fun lengths ↦ ?_)
  refine Steady.ite (Steady.error .corrupt) ?_
  refine (steady_readAllLengths _ _ []).bind (.of_fst fun all ↦ ?_)
  refine steady_codeOf _ fun distanceCode ↦ steady_codeOf _ fun literalCode ↦ ?_
  exact Steady.pure_pair literalCode distanceCode

theorem steady_readBlock (kind : Nat) (out : Array UInt8) : Steady (readBlock kind out) := by
  match kind with
  | 0 => exact steady_readStored out
  | 1 => exact steady_readTokens fixedCode fixedDistanceCode out
  | 2 =>
    refine steady_readCodes.bind (.of_fst fun literals ↦ .of_fst fun distances ↦ ?_)
    exact steady_readTokens literals distances out
  | _ + 3 => exact Steady.error .corrupt

theorem readBlocks_eq (out : Array UInt8) (s : BitSource) :
    readBlocks out s =
      s.next >>= fun (final, s) ↦ s.number 2 >>= fun (kind, s) ↦
        readBlock kind out s >>= fun (out, s) ↦
          if final then .ok (out, s) else readBlocks out s := by
  rw [readBlocks]
  split
  · next h => rw [h]; rfl
  · next h =>
    rw [h]
    dsimp only [bind, Except.bind]
    split
    · next h => rw [h]
    · next h =>
      rw [h]
      dsimp only
      split
      · next h => rw [h]
      · next h => rw [h]

theorem steady_readBlocks (out : Array UInt8) : Steady (readBlocks out) := by
  intro s
  induction hn : s.size using Nat.strongRecOn generalizing out s with
  | _ n ih =>
    rw [funext (readBlocks_eq out)]
    refine (BitSource.steady_next s).bind fun (final, s₁) h₁ ↦ .of_snd ?_
    refine (BitSource.steady_number 2 s₁).bind fun (kind, s₂) h₂ ↦ .of_snd ?_
    refine (steady_readBlock kind out s₂).bind fun (out, s₃) h₃ ↦ .of_snd ?_
    have h₁ := BitSource.size_next h₁
    have h₂ := BitSource.size_number h₂
    have h₃ := size_readBlock_le h₃
    cases final with
    | true => exact Steady.pure out s₃
    | false => exact ih s₃.size (by omega) out s₃ rfl

theorem steady_inflate : Steady inflate := by
  have h : inflate = fun b ↦ readBlocks #[] (.ofBytes b) >>= fun (out, s) ↦
      .ok (out.toList, s.rest) := by
    funext b
    rw [inflate]
    cases readBlocks #[] (.ofBytes b) <;> rfl
  rw [h]
  have hblocks : Steady fun b : Bytes ↦ readBlocks #[] (.ofBytes b) :=
    BitSource.steady_ofBytes.bind (steady_readBlocks #[])
  exact hblocks.bind (.of_fst fun out ↦ BitSource.steady_rest.bind (Steady.pure out.toList))

/-- What follows a stream is left, whatever it is. -/
theorem inflate_append {b text rest : Bytes} (h : inflate b = .ok (text, rest)) (more : Bytes) :
    inflate (b ++ more) = .ok (text, rest ++ more) := by
  rcases (steady_inflate b).longer more with ht | ht
  · rw [h] at ht
    cases ht
  · rw [h] at ht
    exact ht

/-- A stream is read without what follows it. -/
theorem exists_of_inflate {b text rest : Bytes} (h : inflate b = .ok (text, rest)) :
    ∃ stream, b = stream ++ rest ∧ inflate stream = .ok (text, []) :=
  (steady_inflate b).shorter (text, []) rest h

/-- A stream that is cut before its end breaks off there, wherever that is. -/
theorem inflate_of_cut {p more text rest : Bytes} (h : inflate (p ++ more) = .ok (text, rest))
    (hlt : rest.length < more.length) : inflate p = .error .truncated := by
  rcases (steady_inflate p).longer more with ht | ht
  · exact ht
  cases hp : inflate p with
  | error e =>
    have he : inflate (p ++ more) = .error e := by
      rw [hp] at ht
      exact ht
    rw [h] at he
    cases he
  | ok r =>
    obtain ⟨text', left⟩ := r
    rw [inflate_append hp more, Except.ok.injEq, Prod.mk.injEq] at h
    rw [← h.2, List.length_append] at hlt
    omega

end ColumnFunctions.Deflate
