import ColumnFunctions.Failure

namespace ColumnFunctions

inductive Function where
  | compress
  | decompress
  | clickstreamCommonFields
  | clickstreamAttributeFields
  | clickstreamUserFields
  | encrypt
  | decrypt
  deriving DecidableEq, Repr

abbrev Row := List (Option String)

namespace Function

def all : List Function :=
  [.compress, .decompress, .clickstreamCommonFields, .clickstreamAttributeFields,
    .clickstreamUserFields, .encrypt, .decrypt]

def name : Function → String
  | .compress => "compress"
  | .decompress => "decompress"
  | .clickstreamCommonFields => "decompress_clickstream_common_fields"
  | .clickstreamAttributeFields => "decompress_clickstream_attribute_fields"
  | .clickstreamUserFields => "decompress_clickstream_user_fields"
  | .encrypt => "encrypt"
  | .decrypt => "decrypt"

/-- The functions that use a key take the name of its secret as a second argument. -/
def arity : Function → Nat
  | .encrypt | .decrypt => 2
  | _ => 1

def ofName (s : String) : Except Failure Function :=
  match all.find? (·.name = s) with
  | some f => .ok f
  | none => .error ⟨.unknownFunction, s⟩

theorem ofName_name (f : Function) : ofName f.name = .ok f := by cases f <;> rfl

end Function

end ColumnFunctions
