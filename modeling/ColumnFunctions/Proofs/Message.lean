import ColumnFunctions.Message
import ColumnFunctions.Proofs.Json.Restored

namespace ColumnFunctions

open Json

namespace Json

theorem byTree_text : ByTree readText := by
  intro n
  cases n with
  | null | bool | number | broken => rfl
  | string => simp [readText, Node.tree?, Tree.node]
  | list _ es => cases ht : es.trees? <;> simp [readText, Node.tree?, Tree.node, ht]
  | object _ ms => cases ht : ms.trees? <;> simp [readText, Node.tree?, Tree.node, ht]

theorem Field.text_restores {σ : Type} (s name : String) (set : String → σ → σ) :
    (Field.filled name readText set).Restores (.string s) (set s) :=
  ⟨trivial, rfl⟩

end Json

namespace Message

theorem byTree_texts : ∀ room, ByTree (readTexts room) :=
  byTree_list fun _ ↦ byTree_option byTree_text

theorem readTexts_texts (room : Nat) (values : List (Option String)) :
    readTexts (room + 1) (texts values).tree.node = .ok values := by
  refine readList_written fun s _ ↦ ?_
  cases s <;> rfl

theorem exact_texts (values : List (Option String)) : (texts values).Exact := by
  rw [texts, Value.Exact, Value.exactAll_iff, List.forall_mem_map]
  intro s _
  cases s <;> trivial

end Message

open Message

namespace Invocation

theorem byTree_shape (room : Nat) : (shape room).ByTree := by
  intro field hf
  simp only [shape, List.mem_cons, List.not_mem_nil, or_false] at hf
  rcases hf with rfl | rfl
  · exact byTree_text.map _
  · exact (byTree_list byTree_texts room).map _

theorem restores (room : Nat) (r : Invocation) : ∃ members, r.toValue = .object members ∧
    Shape.Restores (shape (room + 2)).fields members {} r := by
  have hrows : readList readTexts (room + 2) (Value.list (r.rows.map texts)).tree.node =
      .ok r.rows :=
    readList_written fun row _ ↦ readTexts_texts room row
  have hexact : (Value.list (r.rows.map texts)).Exact := by
    rw [Value.Exact, Value.exactAll_iff, List.forall_mem_map]
    exact fun row _ ↦ exact_texts row
  exact ⟨_, rfl, .cons _ (Field.text_restores r.function _ _) <|
    .cons _ (Field.filled_restores hexact hrows _ _) <| .nil _⟩

theorem readDocument_text (r : Invocation) : readDocument ofNode r.toValue.text = .ok r := by
  obtain ⟨members, hr, h⟩ := restores 124 r
  rw [hr]
  exact h.readDocument byTree_shape (by simp [shape, Field.filled])

end Invocation

namespace Results

theorem byTree_shape (room : Nat) : (shape room).ByTree := by
  intro field hf
  simp only [shape, List.mem_cons, List.not_mem_nil, or_false] at hf
  obtain rfl := hf
  exact (byTree_texts room).map _

theorem restores (room : Nat) (r : Results) : ∃ members, r.toValue = .object members ∧
    Shape.Restores (shape (room + 1)).fields members {} r :=
  ⟨_, rfl, .cons _ (Field.filled_restores (exact_texts _) (readTexts_texts room r.values) _ _) <|
    .nil _⟩

theorem readDocument_text (r : Results) : readDocument ofNode r.toValue.text = .ok r := by
  obtain ⟨members, hr, h⟩ := restores 125 r
  rw [hr]
  exact h.readDocument byTree_shape (by simp [shape, Field.filled])

end Results

namespace ErrorReport

theorem byTree_shape (room : Nat) : (shape room).ByTree := by
  intro field hf
  simp only [shape, List.mem_cons, List.not_mem_nil, or_false] at hf
  rcases hf with rfl | rfl
  · exact byTree_text.map _
  · exact byTree_text.map _

theorem restores (room : Nat) (r : ErrorReport) : ∃ members, r.toValue = .object members ∧
    Shape.Restores (shape room).fields members {} r :=
  ⟨_, rfl, .cons _ (Field.text_restores r.code _ _) <|
    .cons _ (Field.text_restores r.message _ _) <| .nil _⟩

theorem readDocument_text (r : ErrorReport) : readDocument ofNode r.toValue.text = .ok r := by
  obtain ⟨members, hr, h⟩ := restores 126 r
  rw [hr]
  exact h.readDocument byTree_shape (by simp [shape, Field.filled])

end ErrorReport

end ColumnFunctions
