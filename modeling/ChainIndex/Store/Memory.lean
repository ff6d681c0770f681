import ChainIndex.Store.Basic

/-!
This module contains the store that keeps its records in memory: the records in order of their places,
and beside them the ordinal of every key, through which a key leads to its place.
-/

namespace ChainIndex

structure MemoryStore (ρ : Type) where
  byPlace : OrderedMap SortKey ρ
  ordinals : OrderedMap String Ordinal

namespace MemoryStore

variable {ρ κ : Type} [RecordKey κ] [Record ρ κ]

def empty : MemoryStore ρ :=
  ⟨.empty, .empty⟩

def size (s : MemoryStore ρ) : Nat :=
  s.ordinals.size

def isEmpty (s : MemoryStore ρ) : Bool :=
  s.size == 0

def place? (s : MemoryStore ρ) (key : String) : Option SortKey :=
  (s.ordinals.get? key).map fun ordinal => ⟨ordinal, key⟩

def find? (s : MemoryStore ρ) (key : String) : Option ρ :=
  (s.place? key).bind s.byPlace.get?

def insert (s : MemoryStore ρ) (r : ρ) : MemoryStore ρ :=
  let place := SortKey.ofRecord r
  ⟨s.byPlace.insert place r, s.ordinals.insert place.key place.ordinal⟩

def erase (s : MemoryStore ρ) (key : String) : MemoryStore ρ :=
  match s.place? key with
  | some place => ⟨s.byPlace.erase place, s.ordinals.erase key⟩
  | none => s

/--
The record under the ordinal of the one that is stored already, if there is one.
-/
def keepOrdinal (previous : Option ρ) (r : ρ) : ρ :=
  match previous with
  | some stored => Record.setOrdinal (Record.ordinal stored) r
  | none => r

def apply (s : MemoryStore ρ) (key : String) : Write ρ → Write ρ × MemoryStore ρ
  | .skip => (.skip, s)
  | .put r =>
    let r := keepOrdinal (s.find? key) r
    (.put r, (s.erase key).insert r)
  | .replace r => (.replace r, (s.erase key).insert r)

def merge (s : MemoryStore ρ) (key : κ) (plan : Planner ρ) :
    Except IndexError (Applied ρ) × MemoryStore ρ :=
  let text := RecordKey.encode key
  let previous := s.find? text
  match plan previous with
  | .error e => (.error e, s)
  | .ok write =>
    match write.foreignKey? text with
    | some other => (.error (.internal s!"merge for `{text}` tried to write `{other}`"), s)
    | none =>
      let (write, s') := s.apply text write
      (.ok ⟨previous, write⟩, s')

def upsert (s : MemoryStore ρ) (r : ρ) : Except IndexError (UpsertOutcome × ρ) × MemoryStore ρ :=
  let key := RecordKey.encode (Record.key r)
  let previous := s.find? key
  let stored := keepOrdinal previous r
  let outcome := if previous.isSome then .updated else .inserted
  (.ok (outcome, stored), (s.erase key).insert stored)

def accepts (f : Filter) (r : ρ) : Bool :=
  f.accepts (Record.toJson r)

def recordsIn (s : MemoryStore ρ) (range : ScanRange) : List ρ :=
  let inRange := (s.byPlace.toList.filter fun e => range.admits e.1).map Prod.snd
  match range.order with
  | .ascending => inRange
  | .descending => inRange.reverse

def scan (s : MemoryStore ρ) (f : Filter) (range : ScanRange) (limit : Nat) :
    Except IndexError (List ρ) := do
  f.ensureValid
  return ((s.recordsIn range).filter (accepts f)).take limit

def count (s : MemoryStore ρ) (f : Filter) : Except IndexError Nat := do
  f.ensureValid
  return s.byPlace.toList.countP fun e => accepts f e.2

def ordinalIn (s : MemoryStore ρ) (key : κ) (f : Filter) :
    Except IndexError (Option Ordinal) := do
  f.ensureValid
  return ((s.find? (RecordKey.encode key)).filter (accepts f)).map Record.ordinal

instance : RecordStore (MemoryStore ρ) ρ κ where
  lookup s key := .ok (s.find? (RecordKey.encode key))
  ordinalIn := ordinalIn
  scan := scan
  count := count
  upsert := upsert
  merge := merge

end MemoryStore

end ChainIndex
