import ChainIndex.Record.Swap
import ChainIndex.Store.Basic

/-!
This module contains how events of a swap are merged into one state. A trade and the snapshot of the
reserves after it may be delivered in either order and more than once: the state that they lead to has
the amounts of the trade and the reserves of the latest snapshot.
-/

namespace ChainIndex

inductive SwapDisposition where
  | inserted
  | reservesUpdated
  | transplanted
  | alreadyKnown
  | dustDropped
deriving DecidableEq

/--
What has become of an event of a swap: whether it is the stored state now, and under which reserves if
these were known before it.
-/
structure SwapOutcome where
  accepted : Bool
  correctedReserves : Option Reserves
  disposition : SwapDisposition
deriving DecidableEq

namespace SwapState

def rekey (s : SwapState) : SwapState :=
  { s with key := .derive s.txHash s.pair }

/--
A trade takes the place of a snapshot with its own ordinal, a snapshot only changes the reserves. Dust
is neither stored nor put in the place of a snapshot.
-/
def plan (precision : UInt8) (event : SwapState) : Planner SwapState
  | none => .ok (if event.isDust precision then .skip else .put event)
  | some state =>
    .ok <| match event.swapType, state.swapType with
      | .sync, _ => .put { state with reserves := event.reserves }
      | .swap, .sync =>
        if event.isDust precision then .skip else .replace { event with reserves := state.reserves }
      | .swap, .swap => .skip

end SwapState

def SwapOutcome.ofApplied (precision : UInt8) (event : SwapState) : Applied SwapState → SwapOutcome
  | ⟨none, .skip⟩ => ⟨false, none, .dustDropped⟩
  | ⟨none, _⟩ => ⟨true, none, .inserted⟩
  | ⟨some _, .put _⟩ => ⟨false, none, .reservesUpdated⟩
  | ⟨some state, .replace _⟩ => ⟨true, some state.reserves, .transplanted⟩
  | ⟨some _, .skip⟩ => ⟨false, none, if event.isDust precision then .dustDropped else .alreadyKnown⟩

end ChainIndex
