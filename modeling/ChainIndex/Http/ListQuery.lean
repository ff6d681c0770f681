import ChainIndex.Config
import ChainIndex.Filter.Text
import ChainIndex.Http.Query

/-!
This module contains the query of a listing: which page is asked for, and under which filter.
-/

namespace ChainIndex

structure ListQuery where
  cursor : Option String
  count : Option Int32
  filter : Option String
deriving DecidableEq

namespace ListQuery

def readCount? (raw : String) : Option Int32 :=
  (Numeral.readInt (UInt32.size / 2) (UInt32.size / 2 - 1) raw.toList).toOption.map Int32.ofInt

def read? (query : List Char) : Option ListQuery := do
  let pairs := Query.read query
  let cursor ← Query.value? "cursor" pairs
  let count ← Query.value? "count" pairs
  let filter ← Query.value? "filter" pairs
  let count ← count.mapM readCount?
  return ⟨cursor, count, filter⟩

def maxCount : Nat := UInt32.size / 2 - 1

/--
The count of the query, or the default one, within the limits in either direction. A limit above all
counts is no limit, and a default above them is as large as the limit allows.
-/
def countWithin (q : ListQuery) (limits : PageLimits) : Int32 :=
  let most := min limits.maxSize.toNat maxCount
  let count : Int :=
    match q.count with
    | none => if limits.defaultSize.toNat ≤ maxCount then min limits.defaultSize.toNat most else most
    | some count => max (-most) (min most count.toInt)
  Int32.ofInt count

end ListQuery

end ChainIndex
