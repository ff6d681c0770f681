import ChainIndex.Store.Basic

/-!
This module contains the store whose table can no longer be reached. It still makes the checks that
need no connection, so a faulty request is refused for its own fault.
-/

namespace ChainIndex

structure ClosedPool (ρ : Type) where

namespace ClosedPool

variable {ρ κ : Type}

def closed : IndexError :=
  .storage "attempted to acquire a connection on a closed pool"

def maxQueryLimit : Nat := UInt64.size / 2 - 1

def scan (f : Filter) (range : ScanRange) (limit : Nat) : Except IndexError (List ρ) := do
  if maxQueryLimit < limit then .error (.internal s!"scan limit {limit} too large")
  f.ensureValid
  if let some place := range.after then
    discard (place.ordinal.toSigned.mapError OrdinalFault.toError)
  .error closed

instance [RecordKey κ] [Record ρ κ] : RecordStore (ClosedPool ρ) ρ κ where
  lookup _ _ := .error closed
  ordinalIn _ _ f := do
    f.ensureValid
    .error closed
  scan _ := scan
  count _ f := do
    f.ensureValid
    .error closed
  upsert s _ := (.error closed, s)
  merge s _ _ := (.error closed, s)

end ClosedPool

end ChainIndex
