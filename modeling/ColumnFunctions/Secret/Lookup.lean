import ColumnFunctions.Secret.Cache

namespace ColumnFunctions.Secret

/-- A slot for the key of a name, with the callers that queue for it while there is no key. -/
structure Slot where
  name : String
  key : Option Key := none
  queue : List Nat := []

/-- How far a caller has come. All but the first and the last hold on to a slot. -/
inductive Phase where
  | begun
  | arrived (slot : Nat)
  | queued (slot : Nat)
  | asking (slot request : Nat)
  | answered (slot : Nat) (reply : Reply)
  | failed (slot : Nat) (e : Failure)
  | done (result : Except Failure Key)

namespace Phase

def slot? : Phase → Option Nat
  | .begun | .done _ => none
  | .arrived n | .queued n | .asking n _ | .answered n _ | .failed n _ => some n

def result? : Phase → Option (Except Failure Key)
  | .done r => some r
  | _ => none

end Phase

structure Caller where
  name : String
  phase : Phase := .begun

/-- Look-ups under way. A slot is known by its place among all slots that were ever made; `current`
has the slot that a new caller finds under a name. -/
structure Lookups where
  slots : List Slot
  current : List (String × Nat)
  requests : List String
  callers : List Caller

namespace Lookups

def start (cache : Cache) (names : List String) : Lookups where
  slots := cache.keys.map fun (name, key) ↦ { name := name, key := some key }
  current := cache.keys.zipIdx.map fun (entry, n) ↦ (entry.1, n)
  requests := cache.requests
  callers := names.map fun name ↦ { name := name }

def key? (s : Lookups) (slot : Nat) : Option Key := s.slots[slot]?.bind (·.key)

def cache (s : Lookups) : Cache where
  keys := s.current.filterMap fun (name, slot) ↦ (s.key? slot).map fun key ↦ (name, key)
  requests := s.requests

def setPhase (s : Lookups) (caller : Nat) (phase : Phase) : Lookups :=
  { s with callers := s.callers.modify caller fun c ↦ { c with phase := phase } }

def modifySlot (s : Lookups) (slot : Nat) (f : Slot → Slot) : Lookups :=
  { s with slots := s.slots.modify slot f }

def holders (s : Lookups) (slot : Nat) : Nat :=
  s.callers.countP fun c ↦ c.phase.slot? = some slot

def arrive (s : Lookups) (caller : Nat) (name : String) : Lookups :=
  match s.current.lookup name with
  | some slot => s.setPhase caller (.arrived slot)
  | none =>
    let slot := s.slots.length
    let s : Lookups :=
      { s with slots := s.slots ++ [{ name := name }], current := s.current ++ [(name, slot)] }
    s.setPhase caller (.arrived slot)

def enqueue (s : Lookups) (caller slot : Nat) : Lookups :=
  match s.key? slot with
  | some key => s.setPhase caller (.done (.ok key))
  | none =>
    (s.modifySlot slot fun x ↦ { x with queue := x.queue ++ [caller] }).setPhase caller
      (.queued slot)

def request (s : Lookups) (caller slot : Nat) (name : String) : Lookups :=
  match s.key? slot with
  | some key => s.setPhase caller (.done (.ok key))
  | none =>
    if (s.slots[slot]?.bind (·.queue.head?)) = some caller then
      let asking : Phase := .asking slot (s.requests.count name)
      { s with requests := s.requests ++ [name] }.setPhase caller asking
    else s

def resolve (s : Lookups) (caller slot : Nat) (name : String) (reply : Reply) : Lookups :=
  match keyOfReply name reply with
  | .ok key =>
    (s.modifySlot slot fun x ↦ { x with key := some key, queue := [] }).setPhase caller
      (.done (.ok key))
  | .error e =>
    (s.modifySlot slot fun x ↦ { x with queue := x.queue.tail }).setPhase caller (.failed slot e)

/-- A caller that failed removes its slot, unless that has a key, is not the one that others find,
or is held by others. -/
def discard (s : Lookups) (slot : Nat) (name : String) : Lookups :=
  if s.current.lookup name = some slot ∧ s.holders slot ≤ 1 ∧ (s.key? slot).isNone then
    { s with current := s.current.filter (·.1 ≠ name) }
  else s

/-- The next step of a caller. One that cannot go on stays where it is. -/
def step (store : Store) (s : Lookups) (caller : Nat) : Lookups :=
  match s.callers[caller]? with
  | none => s
  | some c =>
    match c.phase with
    | .begun => s.arrive caller c.name
    | .arrived slot => s.enqueue caller slot
    | .queued slot => s.request caller slot c.name
    | .asking slot number => s.setPhase caller (.answered slot (store c.name number))
    | .answered slot reply => s.resolve caller slot c.name reply
    | .failed slot e => (s.discard slot c.name).setPhase caller (.done (.error e))
    | .done _ => s

def run (store : Store) (schedule : List Nat) (s : Lookups) : Lookups :=
  schedule.foldl (step store) s

/-- All callers take a step in turn, often enough for all to be done: two steps take everyone to
the queue, in which each needs at most three turns and one more for its end. -/
def inTurn (callers : Nat) : List Nat :=
  (List.replicate (3 * callers + 3) (List.range callers)).flatten

end Lookups

def getTogether (store : Store) (names : List String) (cache : Cache) :
    List (Except Failure Key) × Cache :=
  let s := (Lookups.start cache names).run store (Lookups.inTurn names.length)
  (s.callers.filterMap (·.phase.result?), s.cache)

end ColumnFunctions.Secret
