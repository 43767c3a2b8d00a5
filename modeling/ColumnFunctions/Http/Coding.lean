import ColumnFunctions.Http.Exchange
import ColumnFunctions.Text.Blank

namespace ColumnFunctions.Http.Coding

def name? : Coding → Option String
  | .identity => none
  | .deflate => some "deflate"
  | .gzip => some "gzip"
  | .brotli => some "br"
  | .zstandard => some "zstd"

def ofName? (s : String) : Option Coding :=
  match s.toLower with
  | "zstd" => some .zstandard
  | "br" => some .brotli
  | "gzip" | "x-gzip" => some .gzip
  | "deflate" => some .deflate
  | "identity" => some .identity
  | _ => none

def rank : Coding → Nat
  | .identity => 0
  | .deflate => 1
  | .gzip => 2
  | .brotli => 3
  | .zstandard => 4

/-- Adds the decimals of a weight, of which the first counts `unit` thousandths. -/
def addDecimals (unit total : Nat) : List Char → Option Nat
  | [] => if total ≤ 1000 then some total else none
  | c :: rest =>
    if c.isDigit ∧ 0 < unit then addDecimals (unit / 10) (total + unit * (c.toNat - 48)) rest
    else none

def weight? : List Char → Option Nat
  | q :: '=' :: d :: rest =>
    if q.toLower ≠ 'q' ∨ (d ≠ '0' ∧ d ≠ '1') then none
    else
      let whole := if d = '1' then 1000 else 0
      match rest with
      | [] => some whole
      | '.' :: decimals => addDecimals 100 whole decimals
      | _ => none
  | _ => none

def ofEntry? (entry : String) : Option (Coding × Nat) :=
  let cs := entry.toList
  match ofName? (Text.trim (String.ofList (cs.takeWhile (· ≠ ';')))) with
  | none => none
  | some coding =>
    match cs.dropWhile (· ≠ ';') with
    | [] => some (coding, 1000)
    | _ :: weight => (weight? (Text.trimChars weight)).map fun w ↦ (coding, w)

def isPreferred (a b : Coding × Nat) : Bool := b.2 < a.2 ∨ (a.2 = b.2 ∧ b.1.rank < a.1.rank)

/-- The coding that a client prefers, whose list may come in pieces. What cannot be read is left
out, as is what has no weight. -/
def preferred (accepted : List String) : Coding :=
  let entries := (accepted.flatMap (·.splitOn ",")).filterMap ofEntry?
  let best := (entries.filter (0 < ·.2)).foldl
    (fun best e ↦ if isPreferred e best then e else best) (Coding.identity, 0)
  best.1

def leastSize : Nat := 32

def apply (accepted : List String) (r : Response) : Response :=
  if r.body.utf8ByteSize < leastSize then r else { r with coding := preferred accepted }

end ColumnFunctions.Http.Coding
