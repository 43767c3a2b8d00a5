import ColumnFunctions.Secret.Key

namespace ColumnFunctions.Secret

/-- The known keys, each name once, and the names that the store was asked for, in order. -/
structure Cache where
  keys : List (String × Key) := []
  requests : List String := []

namespace Cache

def size (c : Cache) : Nat := c.keys.length

def isEmpty (c : Cache) : Bool := c.size = 0

def key? (c : Cache) (name : String) : Option Key := c.keys.lookup name

def asked (c : Cache) (name : String) : Nat := c.requests.count name

/-- The key of a name, for which the store is asked only if the key is not known. A key is kept for
good and a failure is not kept. -/
def get (store : Store) (name : String) (c : Cache) : Except Failure Key × Cache :=
  match c.key? name with
  | some key => (.ok key, c)
  | none =>
    let requests := c.requests ++ [name]
    match keyOfReply name (store name (c.asked name)) with
    | .ok key => (.ok key, ⟨c.keys ++ [(name, key)], requests⟩)
    | .error e => (.error e, ⟨c.keys, requests⟩)

end Cache

end ColumnFunctions.Secret
