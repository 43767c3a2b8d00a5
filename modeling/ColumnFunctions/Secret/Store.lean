namespace ColumnFunctions.Secret

inductive StoreFailure where
  | notFound
  | noText
  | unreachable (message : String)
  deriving DecidableEq, Repr

def StoreFailure.message (name : String) : StoreFailure → String
  | .notFound => "secret not found: " ++ name
  | .noText => "secret " ++ name ++ " has no string value"
  | .unreachable m => "secret store request failed: " ++ m

abbrev Reply := Except StoreFailure String

/-- The reply to each request for a name, of which the first has number 0. -/
abbrev Store := (name : String) → (request : Nat) → Reply

def Store.ofScript (script : String → List Reply) : Store := fun name request ↦
  let replies := script name
  (replies[request]?.or replies.getLast?).getD (.error .notFound)

end ColumnFunctions.Secret
