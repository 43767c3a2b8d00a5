import ColumnFunctions.Json.Value

namespace ColumnFunctions.Http

structure Request where
  method : String
  target : String
  headers : List (String × String) := []
  body : String := ""

namespace Request

def isScheme (c : Char) : Bool := c.isAlphanum ∨ c ∈ ['+', '-', '.']

def fromPath (target : List Char) : List Char :=
  match target.dropWhile isScheme with
  | ':' :: '/' :: '/' :: rest => rest.dropWhile (· ∉ ['/', '?', '#'])
  | _ => target

def path (r : Request) : String :=
  String.ofList ((fromPath r.target.toList).takeWhile fun c ↦ c ≠ '?' ∧ c ≠ '#')

def values (r : Request) (name : String) : List String :=
  (r.headers.filter (·.1.toLower = name)).map (·.2)

/-- The characters of a header's value that are not octets of something else. -/
def isPlain (c : Char) : Bool := c = '\t' ∨ (' ' ≤ c ∧ c ≤ '~')

def plain? (value : String) : Option String := if value.toList.all isPlain then some value else none

/-- The value of a header that has one. Of several the first counts, plain or not. -/
def header? (r : Request) (name : String) : Option String := (r.values name).head?.bind plain?

/-- The list that is the value of a header: its plain values, all of which count. -/
def headerList (r : Request) (name : String) : List String := (r.values name).filterMap plain?

end Request

inductive Coding where
  | identity
  | deflate
  | gzip
  | brotli
  | zstandard
  deriving DecidableEq, Repr

structure Response where
  status : Nat
  contentType : Option String := none
  allow : Option String := none
  coding : Coding := .identity
  body : String := ""
  deriving DecidableEq, Repr

namespace Response

def json (status : Nat) (v : Json.Value) : Response where
  status := status
  contentType := some "application/json"
  body := v.text

def plain (status : Nat) (text : String) : Response where
  status := status
  contentType := some "text/plain; charset=utf-8"
  body := text

end Response

end ColumnFunctions.Http
