import ChainIndex.Listing.InMemory
import ChainIndex.Reconcile.Burn
import ChainIndex.Reconcile.Swap

/-!
This module contains the reconciler, which applies events from the chain to the ledger of burned fees and
to the states of swaps.
-/

namespace ChainIndex

structure Reconciler where
  burns : Listing BurnEntry
  swaps : Listing SwapState
  precision : UInt8

namespace Reconciler

def defaultPrecision : UInt8 := 6

def create (precision : UInt8) (capacities : Option (Nat × Nat)) : Reconciler :=
  ⟨.create capacities, .create capacities, precision⟩

def deliverBurn (r : Reconciler) (report : BurnEntry) : Except IndexError BurnOutcome × Reconciler :=
  let (answer, burns) := r.burns.merge report.blockNumber report.plan
  (answer.map BurnOutcome.ofApplied, { r with burns })

/--
The event is filed under the key of its transaction and pair, whatever key it states.
-/
def deliverSwap (r : Reconciler) (event : SwapState) : Except IndexError SwapOutcome × Reconciler :=
  let event := event.rekey
  let (answer, swaps) := r.swaps.merge event.key (event.plan r.precision)
  (answer.map (SwapOutcome.ofApplied r.precision event), { r with swaps })

end Reconciler

end ChainIndex
