import ColumnFunctions.Json.Reading

namespace ColumnFunctions

open Json

structure AttributeRecord where
  members : List (String × Value)

namespace AttributeRecord

def ofNode (room : Nat) (node : Node) : Except Complaint AttributeRecord :=
  (readMap Value.ofNode room node).map .mk

def ofValue : Value → Except Complaint AttributeRecord
  | .object members => .ok ⟨members⟩
  | v => .error (.ofMisfit (.wrongType v.found "a map"))

def toValue (r : AttributeRecord) : Value := .object r.members

end AttributeRecord

end ColumnFunctions
