import ColumnFunctions.Proofs.Json.Tree
import ColumnFunctions.Record.Attribute
import ColumnFunctions.Record.Event
import ColumnFunctions.Record.User

namespace ColumnFunctions

open Json

theorem Scalar.byTree_ofNode? (room : Nat) : ByTree (Scalar.ofNode? room) := by
  have hvalue : ByTree (Value.ofNode room) := byTree_value room
  exact byTree_option (hvalue.bind _)

namespace EventRecord

variable {source : Source Node}

theorem byTree_textField (h : ByTree source) (name : String)
    (set : Option String → EventRecord → EventRecord) : ByTree (textField source name set).read :=
  h.bind _

theorem byTree_integerField {α : Type} [OfNat α 0] (h : ByTree source)
    (convert : Scalar → Except Misfit α) (name : String) (set : α → EventRecord → EventRecord) :
    ByTree (integerField source convert name set).read :=
  h.bind _

theorem byTree_shape (h : ByTree source) : (shape source).ByTree := by
  intro field hf
  simp only [shape, List.mem_cons, List.not_mem_nil, or_false] at hf
  rcases hf with rfl | rfl | rfl | rfl | rfl | rfl | rfl | rfl | rfl | rfl | rfl | rfl | rfl | rfl |
    rfl | rfl
  all_goals first | exact byTree_textField h _ _ | exact byTree_integerField h _ _ _

theorem byTree_ofNode (room : Nat) : ByTree (EventRecord.ofNode room) :=
  Shape.byTree_read (fun room ↦ byTree_shape (Scalar.byTree_ofNode? room)) {} room

end EventRecord

namespace UserAttribute

theorem byTree_shape {source : Node → Except Complaint (Option Scalar)} (h : ByTree source) :
    (shape source).ByTree := by
  intro field hf
  simp only [shape, List.mem_cons, List.not_mem_nil, or_false] at hf
  rcases hf with rfl | rfl
  · exact h.bind _
  · exact h.bind _

theorem byTree_ofNode (room : Nat) : ByTree (UserAttribute.ofNode room) := by
  have hdraft := Shape.byTree_read (fun room ↦ byTree_shape (Scalar.byTree_ofNode? room))
    ({} : Draft) room
  exact hdraft.bind _

end UserAttribute

theorem UserRecord.byTree_ofNode (room : Nat) : ByTree (UserRecord.ofNode room) :=
  (byTree_map UserAttribute.byTree_ofNode room).map _

theorem AttributeRecord.byTree_ofNode (room : Nat) : ByTree (AttributeRecord.ofNode room) :=
  (byTree_map byTree_value room).map _

end ColumnFunctions
