import ColumnFunctions.Clickstream
import ColumnFunctions.Compression
import ColumnFunctions.Encryption
import ColumnFunctions.Function

namespace ColumnFunctions

def Function.wrongArity (f : Function) (count : Nat) : Failure :=
  ⟨.invalidArguments, f.name ++ " expects " ++ toString f.arity ++ " argument(s), got " ++
    toString count⟩

def Function.noSecret (f : Function) : Failure :=
  ⟨.invalidArguments, f.name ++ " requires a secret name"⟩

def secretName (f : Function) (row : Row) : Except Failure String :=
  match row[1]? with
  | some (some name) => .ok name
  | _ => .error f.noSecret

/-- Calls a function. Null data needs no secret, not even the name of one. -/
def invoke (s : Surroundings) (f : Function) (row : Row) : Action (Option String) :=
  if row.length ≠ f.arity then throw (f.wrongArity row.length)
  else
    let data := row.head?.join
    match f with
    | .compress => return compress data
    | .decompress => liftExcept (decompress data)
    | .clickstreamCommonFields => liftExcept (Clickstream.decode .event data)
    | .clickstreamAttributeFields => liftExcept (Clickstream.decode .attribute data)
    | .clickstreamUserFields => liftExcept (Clickstream.decode .user data)
    | .encrypt => withSecret data (encrypt s)
    | .decrypt => withSecret data (decrypt s)
where
  withSecret (data : Option String) (act : String → Option String → Action (Option String)) :
      Action (Option String) := do
    if data.isNone then return none
    act (← secretName f row) data

def invokeBatch (s : Surroundings) (f : Function) (rows : List Row) :
    Action (List (Option String)) :=
  rows.mapM (invoke s f)

end ColumnFunctions
