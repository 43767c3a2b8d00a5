namespace ColumnFunctions.Text

/-- The number that digits denote, unless there are none or one is no digit. -/
def natOfChars? (cs : List Char) : Option Nat :=
  if cs = [] ∨ ¬ cs.all Char.isDigit then none
  else some (cs.foldl (fun n c ↦ n * 10 + (c.toNat - 48)) 0)

def natOfSigned? : List Char → Option Nat
  | '+' :: cs => natOfChars? cs
  | cs => natOfChars? cs

def intOfSigned? : List Char → Option Int
  | '-' :: cs => (natOfChars? cs).map fun n ↦ -(n : Int)
  | cs => (natOfSigned? cs).map Int.ofNat

end ColumnFunctions.Text
