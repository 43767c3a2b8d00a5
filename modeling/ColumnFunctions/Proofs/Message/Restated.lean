import ColumnFunctions.Proofs.Json.Reordered
import ColumnFunctions.Proofs.Message

namespace ColumnFunctions

open Json

/-- A message is read as it was from its text, and from every text that restates it. -/
structure Survives {α : Type} (read : (room : ℕ) → Node → Except Complaint α) (toValue : α → Value)
    (x : α) : Prop where
  printed : readDocument read (toValue x).text = .ok x
  restated : ∀ text, (toValue x).Restates text → readDocument read text = .ok x

theorem Json.Shape.survives {α : Type} {shape : ℕ → Shape Node α} {initial : α}
    (htree : ∀ room, (shape room).ByTree) (hn : ((shape 126).fields.map Field.name).Nodup)
    (hi : (shape 126).Independent) {toValue : α → Value} {x : α}
    (h : ∃ members, toValue x = .object members ∧
      Shape.Restores (shape 126).fields members initial x) :
    Survives (Shape.read shape initial) toValue x := by
  obtain ⟨members, hx, h⟩ := h
  constructor
  · rw [hx]
    exact h.readDocument htree hn
  · intro text ht
    rw [hx] at ht
    exact h.readDocument_restates htree hn hi ht

theorem Invocation.independent (room : ℕ) : (shape room).Independent :=
  List.pairwise_pair.2 (Field.filled_commutes fun _ _ _ ↦ rfl)

theorem Results.independent (room : ℕ) : (shape room).Independent := List.pairwise_singleton _ _

theorem ErrorReport.independent (room : ℕ) : (shape room).Independent :=
  List.pairwise_pair.2 (Field.filled_commutes fun _ _ _ ↦ rfl)

namespace Message

theorem byTree_count : ByTree readCount := by
  intro n
  cases n with
  | number value stop =>
    rcases value with i | n | x
    · rfl
    · rw [Node.tree?, Option.bind_some]
      simp only [readCount, Json.Tree.node, Json.Tree.orIssue, toOption_ok]
      split <;> rfl
    · rfl
  | null | bool | broken => rfl
  | string text => cases text <;> rfl
  | list _ es => cases ht : es.trees? <;> simp [readCount, Node.tree?, Json.Tree.node, ht]
  | object _ ms => cases ht : ms.trees? <;> simp [readCount, Node.tree?, Json.Tree.node, ht]

theorem readCount_ofInt (n : ℕ) : readCount (Value.ofInt n).tree.node = .ok n := by
  have hn : ¬ (n : ℤ) < 0 := Int.not_lt.2 (Int.natCast_nonneg n)
  simp only [Value.ofInt, Value.tree, Json.Tree.node, Json.Tree.orIssue, readCount, if_neg hn,
    Int.toNat_natCast]

end Message

namespace Health

theorem byTree_shape (room : ℕ) : (shape room).ByTree := by
  intro field hf
  simp only [shape, List.mem_cons, List.not_mem_nil, or_false] at hf
  rcases hf with rfl | rfl
  · exact byTree_text.map _
  · exact Message.byTree_count.map _

theorem independent (room : ℕ) : (shape room).Independent :=
  List.pairwise_pair.2 (Field.filled_commutes fun _ _ _ ↦ rfl)

theorem restores (room : ℕ) {r : Health} (h : r.cached < 2 ^ 64) :
    ∃ members, r.toValue = .object members ∧ Shape.Restores (shape room).fields members {} r := by
  have hexact : (Value.ofInt r.cached).Exact := by
    have hmin : Int64.minValue.toInt = -9223372036854775808 := by decide
    have hsize : (UInt64.size : ℤ) = 2 ^ 64 := rfl
    exact ⟨by omega, by omega⟩
  exact ⟨_, rfl, .cons _ (Field.text_restores r.status _ _) <|
    .cons _ (Field.filled_restores hexact (Message.readCount_ofInt r.cached) _ _) <| .nil _⟩

end Health

/-- Calls, results, reports of errors and the state of the service are read as they were written,
from their texts and from all that restate them. Only the number of keys has to fit a word. -/
theorem messages_survive :
    (∀ r : Invocation, Survives Invocation.ofNode Invocation.toValue r) ∧
    (∀ r : Results, Survives Results.ofNode Results.toValue r) ∧
    (∀ r : ErrorReport, Survives ErrorReport.ofNode ErrorReport.toValue r) ∧
    ∀ r : Health, r.cached < 2 ^ 64 → Survives Health.ofNode Health.toValue r := by
  refine ⟨fun r ↦ ?_, fun r ↦ ?_, fun r ↦ ?_, fun r hr ↦ ?_⟩
  · exact Shape.survives Invocation.byTree_shape (by simp [Invocation.shape, Field.filled])
      (Invocation.independent 126) (Invocation.restores 124 r)
  · exact Shape.survives Results.byTree_shape (by simp [Results.shape, Field.filled])
      (Results.independent 126) (Results.restores 125 r)
  · exact Shape.survives ErrorReport.byTree_shape (by simp [ErrorReport.shape, Field.filled])
      (ErrorReport.independent 126) (ErrorReport.restores 126 r)
  · exact Shape.survives Health.byTree_shape (by simp [Health.shape, Field.filled])
      (Health.independent 126) (Health.restores 126 hr)

theorem messages_survive_greatest :
    let state :=
      "\n\x7b\"x\":[null],\"secrets_cached\":18446744073709551615,\"status\":\"ok\"\x7d "
    let call := "\x7b\"function\":\"encrypt\",\"rows\":[[\"\\\"\\n\",null],[]]\x7d"
    readDocument Health.ofNode state = .ok ⟨"ok", 2 ^ 64 - 1⟩ ∧
      readDocument Invocation.ofNode call = .ok ⟨"encrypt", [[some "\"\n", none], []]⟩ := by
  intro state call
  obtain ⟨hcall, -, -, hhealth⟩ := messages_survive
  constructor
  · let moved := [("x", Value.list [.null]), ("secrets_cached", .ofInt (2 ^ 64 - 1)),
      ("status", .string "ok")]
    have hexact : (Value.object moved).Exact :=
      ⟨⟨trivial, trivial⟩, ⟨by decide, by decide⟩, trivial, trivial⟩
    have hbefore : Blanks ['\n'] := List.forall_mem_singleton.2 rfl
    have hafter : Blanks [' '] := List.forall_mem_singleton.2 rfl
    have hspells := SpellsText.mk hbefore hafter (Value.spells _ hexact)
    refine (hhealth ⟨"ok", 2 ^ 64 - 1⟩ (by decide)).restated _
      ⟨_, Value.memberTrees moved, rfl, ⟨[(some "x", .list [.null])], by simp, ?_⟩, ?_⟩
    · exact List.reverse_perm [(some "status", _), (some "secrets_cached", _), (some "x", _)]
    · have hchars : state.toList = ['\n'] ++ ((Value.object moved).chars ++ [' ']) := by
        decide +kernel
      rw [hchars]
      exact hspells
  · have htext : (Invocation.mk "encrypt" [[some "\"\n", none], []]).toValue.text = call := by
      decide +kernel
    rw [← htext]
    exact (hcall _).printed

end ColumnFunctions
