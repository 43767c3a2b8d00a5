import ColumnFunctions.Deflate.Token
import Std.Data.HashMap

namespace ColumnFunctions.Deflate

def minCopy : Nat := 3

def maxCopy : Nat := 258

def window : Nat := 32768

def searchDepth : Nat := 256

/-- For each place with three octets, the last earlier place with the same three. The very first
place stands for none and is never linked to. -/
def links (data : Array UInt8) : Array (Option Nat) :=
  ((List.range (data.size - 2)).foldl
    (fun (found, last) i ↦
      let key := (data[i]?, data[i + 1]?, data[i + 2]?)
      (found.push last[key]?, if i = 0 then last else last.insert key i))
    ((#[], ∅) : Array (Option Nat) ×
      Std.HashMap (Option UInt8 × Option UInt8 × Option UInt8) Nat)).1

def commonLength (data : Array UInt8) (i j : Nat) : (limit : Nat) → Nat
  | 0 => 0
  | limit + 1 =>
    if _hi : i < data.size then
      if _hj : j < data.size then
        if data[i] = data[j] then 1 + commonLength data (i + 1) (j + 1) limit else 0
      else 0
    else 0

structure Match where
  length : Nat
  distance : Nat

/-- The better of `best` and the copies from the places linked to, at most `tries` of them. Only
what compares equal is copied, whatever the links propose. -/
def search (data : Array UInt8) (links : Array (Option Nat)) (place : Nat) (best : Match) :
    (tries : Nat) → Option Nat → Match
  | 0, _ | _, none => best
  | tries + 1, some earlier =>
    if place ≤ earlier ∨ window < place - earlier then best
    else
      let length := commonLength data place earlier maxCopy
      let best := if best.length < length then ⟨length, place - earlier⟩ else best
      if best.length = maxCopy then best
      else search data links place best tries (links[earlier]?.join)

def longestMatch (data : Array UInt8) (links : Array (Option Nat)) (place : Nat) : Match :=
  search data links place ⟨0, 0⟩ searchDepth (links[place]?.join)

def tokensFrom (data : Array UInt8) (links : Array (Option Nat)) (place : Nat) : List Token :=
  if _h : place < data.size then
    let here := longestMatch data links place
    if _hc : here.length < minCopy ∨
        here.length < (longestMatch data links (place + 1)).length then
      .literal data[place] :: tokensFrom data links (place + 1)
    else .copy here.length here.distance :: tokensFrom data links (place + here.length)
  else []
termination_by data.size - place
decreasing_by
  · omega
  · simp only [minCopy, not_or, Nat.not_lt, here] at _hc
    omega

def tokens (b : Bytes) : List Token :=
  let data := b.toArray
  tokensFrom data (links data) 0

end ColumnFunctions.Deflate
