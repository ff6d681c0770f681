import ChainIndex.Listing.Engine
import ChainIndex.Store.Memory

/-!
This module contains the listings whose records are kept in memory.
-/

namespace ChainIndex

abbrev Listing (ρ : Type) := Engine (MemoryStore ρ) ρ

/--
An empty listing, with a cache of the given capacities for records and for the top of the listing or
with none. The cache is filled from the start, so it knows that there are no records.
-/
def Listing.create {ρ κ : Type} [RecordKey κ] [Record ρ κ] (capacities : Option (Nat × Nat)) : Listing ρ :=
  let cache := capacities.map fun (records, recent) => Cache.empty records recent
  (Engine.warm ⟨.empty, cache⟩).2

end ChainIndex
