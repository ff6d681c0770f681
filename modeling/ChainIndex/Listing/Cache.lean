import ChainIndex.Store.Basic

/-!
This module contains the cache in front of a store. It holds records by key, of which the one that entered
first is the first to leave, and beside them the records on top of the listing, together with the number
of all records once that is known.
-/

namespace ChainIndex

structure Cache (ρ : Type) where
  recordCapacity : Nat
  recentCapacity : Nat
  held : OrderedMap String ρ
  /-- The keys of the records that are held, in the order in which they entered. -/
  queue : List String
  /-- The records on top of the listing, from the top downward. -/
  recent : List ρ
  total : Option Nat

namespace Cache

variable {ρ κ : Type}

def empty (recordCapacity recentCapacity : Nat) : Cache ρ :=
  ⟨recordCapacity, recentCapacity, .empty, [], [], none⟩

def evict (capacity : Nat) : List String → OrderedMap String ρ → List String × OrderedMap String ρ
  | [], held => ([], held)
  | key :: queue, held =>
    if capacity < held.size then evict capacity queue (held.erase key) else (key :: queue, held)

/--
Puts a record above the first one that it does not stand below.
-/
def place [RecordKey κ] [Record ρ κ] (r : ρ) : List ρ → List ρ
  | [] => [r]
  | x :: rest => if SortKey.ofRecord r < SortKey.ofRecord x then x :: place r rest else r :: x :: rest

def get? [RecordKey κ] (c : Cache ρ) (key : κ) : Option ρ :=
  c.held.get? (RecordKey.encode key)

variable [RecordKey κ] [Record ρ κ]

def keyText (r : ρ) : String :=
  RecordKey.encode (Record.key r)

/--
Holds a record that has been read. A record that is held already keeps its turn to leave.
-/
def remember (c : Cache ρ) (r : ρ) : Cache ρ :=
  if c.recordCapacity = 0 then c
  else
    let key := keyText r
    let queue := if (c.held.get? key).isSome then c.queue else c.queue ++ [key]
    let (queue, held) := evict c.recordCapacity queue (c.held.insert key r)
    { c with queue, held }

def recordWritten (c : Cache ρ) (r : ρ) (inserted : Bool) : Cache ρ :=
  let total := if inserted then c.total.map (· + 1) else c.total
  let others := c.recent.filter fun x => keyText x ≠ keyText r
  { c with total, recent := (place r others).take c.recentCapacity }.remember r

def warm (c : Cache ρ) (top : List ρ) (total : Nat) : Cache ρ :=
  { c with recent := (top.foldr place []).take c.recentCapacity, total := some total }

omit [RecordKey κ] [Record ρ κ] in
/--
The first records of the listing and the number of all, provided that more are known than are asked for:
only then is the last of them not the last of the listing.
-/
def recentPage (c : Cache ρ) (count : Nat) : Option (List ρ × Nat) := do
  let total ← c.total
  if count < c.recent.length then some (c.recent.take count, total) else none

end Cache

end ChainIndex
