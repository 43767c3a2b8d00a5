namespace ColumnFunctions.Http

structure MediaType where
  type : String
  subtype : String
  suffix : Option String
  deriving DecidableEq, Repr

namespace MediaType

def isToken (c : Char) : Bool :=
  c.isAlphanum ∨ c ∈ ['!', '#', '$', '%', '&', '\'', '*', '+', '-', '.', '^', '_', '\x60', '|', '~']

def isQuotable (c : Char) : Bool := ' ' ≤ c ∧ c ≠ '\x7f'

/-- A place among parameters. A quoted value has at least one character. -/
inductive Place where
  | beforeName
  | name
  | beforeValue
  | value
  | beforeQuoted
  | quoted
  | afterQuoted
  deriving DecidableEq, Repr

namespace Place

def next? (p : Place) (c : Char) : Option Place :=
  match p with
  | .beforeName => if c = ' ' then some .beforeName else if isToken c then some .name else none
  | .name => if c = '=' then some .beforeValue else if isToken c then some .name else none
  | .beforeValue => if c = '"' then some .beforeQuoted else if isToken c then some .value else none
  | .value => if c = ';' then some .beforeName else if isToken c then some .value else none
  | .beforeQuoted => if isQuotable c then some .quoted else none
  | .quoted => if c = '"' then some .afterQuoted else if isQuotable c then some .quoted else none
  | .afterQuoted =>
    if c = ';' then some .beforeName else if c = ' ' then some .afterQuoted else none

def isEnd : Place → Bool
  | .beforeName | .beforeValue | .value | .afterQuoted => true
  | .name | .beforeQuoted | .quoted => false

end Place

def areParameters (cs : List Char) : Bool :=
  match cs.foldlM Place.next? .beforeName with
  | some p => p.isEnd
  | none => false

/-- Parts a subtype at its last plus, unless that is its first character. -/
def splitSuffix (cs : List Char) : List Char × Option (List Char) :=
  let suffix := (cs.reverse.takeWhile (· ≠ '+')).reverse
  let subtype := cs.take (cs.length - suffix.length - 1)
  if subtype = [] then (cs, none) else (subtype, some suffix)

def small (cs : List Char) : String := String.ofList (cs.map Char.toLower)

def ofText? (s : String) : Option MediaType :=
  let type := s.toList.takeWhile isToken
  match type, s.toList.dropWhile isToken with
  | _ :: _, '/' :: rest =>
    let (subtype, suffix) := splitSuffix (rest.takeWhile isToken)
    let mediaType : MediaType := ⟨small type, small subtype, suffix.map small⟩
    match rest.dropWhile isToken with
    | [] => some mediaType
    | c :: parameters =>
      if subtype ≠ [] ∧ c = ';' ∧ areParameters parameters then some mediaType else none
  | _, _ => none

def isJson (m : MediaType) : Bool :=
  m.type = "application" ∧ (m.subtype = "json" ∨ m.suffix = some "json")

end MediaType

end ColumnFunctions.Http
