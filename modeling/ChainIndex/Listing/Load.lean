import ChainIndex.Listing.Page
import ChainIndex.Listing.Window

/-!
This module contains the reading of a page from a store. One record more than the page holds is asked for,
which tells whether the listing goes on.
-/

namespace ChainIndex

namespace Page

variable {ρ κ : Type} [Record ρ κ]

def probe (size : Nat) : Nat :=
  min (size + 1) ScanRange.maxLimit

/--
The page of what a scan of a window has found. Fewer records than were asked for exhaust the listing in
the direction of the scan.
-/
def ofScan (found : List ρ) (total : Nat) (f : Filter) (window : Window) (size : Nat) : Page ρ :=
  let exhausted := decide (found.length < probe size)
  let page := ofRecords (found.take size) total f
  match window.direction with
  | .down => { page with isStart := window.isStart, isEnd := window.isEnd || exhausted }
  | .up => { page.reverse with isStart := window.isStart || exhausted, isEnd := window.isEnd }

def load {σ : Type} [RecordStore σ ρ κ] (store : σ) (f : Filter) (window : Window) (size : Nat) :
    Except IndexError (Page ρ) := do
  let found ← RecordStore.scan store f window.scanRange (probe size)
  let total ← RecordStore.count store f
  return ofScan found total f window size

end Page

end ChainIndex
