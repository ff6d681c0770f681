import ChainIndex.Cursor
import ChainIndex.Store.Basic

/-!
This module contains where a page begins and which way it is read, found from a signed count and a cursor.
-/

namespace ChainIndex

inductive Direction where
  | down
  | up
deriving DecidableEq

def Direction.scanOrder : Direction → SortOrder
  | down => .descending
  | up => .ascending

structure PageRequest where
  size : Nat
  direction : Direction
deriving DecidableEq

def PageRequest.ofCount (count : Int32) : Except IndexError PageRequest :=
  if count.toInt = 0 then .error .invalidPageSize
  else .ok ⟨count.toInt.natAbs, if 0 < count.toInt then .down else .up⟩

structure Window where
  direction : Direction
  after : Option SortKey
  isStart : Bool
  isEnd : Bool
deriving DecidableEq

namespace Window

def scanRange (w : Window) : ScanRange :=
  ⟨w.after, w.direction.scanOrder⟩

def whole (direction : Direction) : Window :=
  ⟨direction, none, direction = .down, direction = .up⟩

/--
The listing past a cursor. The record of the cursor has to be part of the listing.
-/
def past {σ ρ κ : Type} [RecordStore σ ρ κ] [RecordKey κ] (store : σ) (f : Filter)
    (cursor : Cursor κ) (direction : Direction) : Except IndexError Window := do
  let key := RecordKey.encode cursor.key
  match ← RecordStore.ordinalIn store cursor.key f with
  | some ordinal => return ⟨direction, some ⟨ordinal, key⟩, false, false⟩
  | none => .error (.recordNotFound cursor.kind key)

def resolve {σ ρ κ : Type} [RecordStore σ ρ κ] [RecordKey κ] (store : σ) (f : Filter)
    (cursor : Option (Cursor κ)) (direction : Direction) : Except IndexError Window :=
  match cursor with
  | none => .ok (whole direction)
  | some cursor => past store f cursor direction

end Window

end ChainIndex
