import ChainIndex.Record.Burn
import ChainIndex.Store.Basic

/-!
This module contains how a report of burned fees is merged into the entry of its block. Reports may be
delivered more than once: one that is contained in the entry changes nothing, and one that overlaps it
only in part is refused, because its amount cannot be split.
-/

namespace ChainIndex

inductive BurnOutcome where
  | inserted
  | merged
  | alreadyApplied
deriving DecidableEq

namespace BurnEntry

def absorb (entry report : BurnEntry) : BurnEntry :=
  { entry with amount := entry.amount + report.amount, txs := entry.txs.union report.txs }

def plan (report : BurnEntry) : Planner BurnEntry
  | none => .ok (.put report)
  | some entry =>
    let overlap := entry.txs.overlap report.txs
    if overlap = report.txs.size then .ok .skip
    else if 0 < overlap then
      .error (.partialBurnUpdateRejected report.blockNumber overlap report.txs.size)
    else .ok (.put (entry.absorb report))

end BurnEntry

def BurnOutcome.ofApplied : Applied BurnEntry → BurnOutcome
  | ⟨_, .skip⟩ => alreadyApplied
  | ⟨none, _⟩ => inserted
  | ⟨some _, _⟩ => merged

end ChainIndex
