import ChainIndex.Listing.Cache
import ChainIndex.Listing.Load

/-!
This module contains the engine of a listing: a store with a cache in front of it or none. Reading and
writing through the engine keeps the cache in step with the store.
-/

namespace ChainIndex

structure Engine (σ ρ : Type) where
  store : σ
  cache : Option (Cache ρ)

namespace Engine

variable {σ ρ κ : Type} [RecordKey κ] [Record ρ κ] [RecordStore σ ρ κ]

def updateCache (g : Engine σ ρ) (change : Cache ρ → Cache ρ) : Engine σ ρ :=
  { g with cache := g.cache.map change }

def warm (g : Engine σ ρ) : Except IndexError Unit × Engine σ ρ :=
  match g.cache with
  | none => (.ok (), g)
  | some cache =>
    let read : Except IndexError (List ρ × Nat) := do
      let top ← RecordStore.scan g.store .all ⟨none, .descending⟩ cache.recentCapacity
      let total ← RecordStore.count g.store .all
      return (top, total)
    match read with
    | .error e => (.error e, g)
    | .ok (top, total) => (.ok (), { g with cache := some (cache.warm top total) })

def recentPage (g : Engine σ ρ) (size : Nat) : Option (Page ρ) := do
  let cache ← g.cache
  let (records, total) ← cache.recentPage size
  return { Page.ofRecords records total .all with isStart := true }

/--
One page of the listing under a filter: past the cursor if there is one, else from the edge that the sign
of the count names.
-/
def list (g : Engine σ ρ) (f : Filter) (token : Option String) (count : Int32) :
    Except IndexError (Page ρ) := do
  let request ← PageRequest.ofCount count
  let cursor : Option (Cursor κ) ← token.mapM fun t =>
    (Cursor.decode (Record.kind ρ) t).mapError CursorFault.toError
  let recent :=
    if cursor.isNone && f.isEmpty && request.direction == .down then g.recentPage request.size else none
  match recent with
  | some page => return page
  | none =>
    let window ← Window.resolve g.store f cursor request.direction
    Page.load g.store f window request.size

def get (g : Engine σ ρ) (key : κ) : Except IndexError (Option ρ) × Engine σ ρ :=
  match g.cache.bind (·.get? key) with
  | some r => (.ok (some r), g)
  | none =>
    match RecordStore.lookup g.store key with
    | .error e => (.error e, g)
    | .ok none => (.ok none, g)
    | .ok (some r) => (.ok (some r), g.updateCache (·.remember r))

def upsert (g : Engine σ ρ) (r : ρ) : Except IndexError (UpsertOutcome × ρ) × Engine σ ρ :=
  match RecordStore.upsert g.store r with
  | (.error e, store) => (.error e, { g with store })
  | (.ok (outcome, stored), store) =>
    (.ok (outcome, stored),
      { g with store }.updateCache (·.recordWritten stored (outcome = UpsertOutcome.inserted)))

def merge (g : Engine σ ρ) (key : κ) (plan : Planner ρ) :
    Except IndexError (Applied ρ) × Engine σ ρ :=
  match RecordStore.merge g.store key plan with
  | (.error e, store) => (.error e, { g with store })
  | (.ok applied, store) =>
    let g := { g with store }
    match applied.write.written? with
    | none => (.ok applied, g)
    | some r => (.ok applied, g.updateCache (·.recordWritten r applied.previous.isNone))

/--
The pages that a client sees who follows the cursors in one direction: from `token` on, until the
listing ends, and at most `limit` pages.
-/
def walk (g : Engine σ ρ) (f : Filter) (count : Int32) :
    Nat → Option String → Except IndexError (List (Page ρ))
  | 0, _ => .ok []
  | limit + 1, token => do
    let page ← g.list f token count
    let (ended, cursor) : Bool × Option (Cursor κ) :=
      if 0 < count.toInt then (page.isEnd, page.lastCursor?) else (page.isStart, page.firstCursor?)
    match if ended then none else cursor with
    | none => return [page]
    | some cursor => return page :: (← g.walk f count limit (some cursor.encode))

end Engine

end ChainIndex
