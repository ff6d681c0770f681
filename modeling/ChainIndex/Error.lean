import ChainIndex.Chain.Bytes
import ChainIndex.Chain.Position
import ChainIndex.Filter.Basic
import ChainIndex.Kind

/-!
This module contains the errors that the index answers with, their codes and their wording.
-/

namespace ChainIndex

/--
Why a request to the index failed. Codes from 1000 are faults of the request, from 2000 missing records,
from 3000 faults of the index itself, from 4000 refused merges.
-/
inductive IndexError where
  | invalidCursor (detail : String)
  | invalidPageSize
  | invalidFilter (detail : String)
  | invalidKey (detail : String)
  | ordinalOverflow (detail : String)
  | recordNotFound (kind : RecordKind) (key : String)
  | internal (detail : String)
  | storage (detail : String)
  | serialization (misfit : Misfit)
  | partialBurnUpdateRejected (block : UInt64) (overlap incoming : Nat)
deriving DecidableEq

namespace IndexError

def code : IndexError → Nat
  | invalidCursor _ => 1001
  | invalidPageSize => 1002
  | invalidFilter _ => 1003
  | invalidKey _ => 1004
  | ordinalOverflow _ => 1005
  | recordNotFound _ _ => 2001
  | internal _ => 3000
  | storage _ => 3001
  | serialization _ => 3002
  | partialBurnUpdateRejected _ _ _ => 4001

def status : IndexError → Nat
  | invalidCursor _ | invalidPageSize | invalidFilter _ | invalidKey _ | ordinalOverflow _ => 400
  | recordNotFound _ _ => 404
  | partialBurnUpdateRejected _ _ _ => 409
  | internal _ | storage _ | serialization _ => 500

/--
The wording of the error, as far as it is not the JSON library's own.
-/
def message? : IndexError → Option String
  | invalidCursor detail => some s!"invalid cursor: {detail}"
  | invalidPageSize => some "invalid page size: count must not be zero"
  | invalidFilter detail => some s!"invalid filter: {detail}"
  | invalidKey detail => some s!"invalid key: {detail}"
  | ordinalOverflow detail => some s!"ordinal overflow: {detail}"
  | recordNotFound kind key => some s!"{kind.name} record `{key}` not found"
  | internal detail => some s!"internal error: {detail}"
  | storage detail => some s!"storage error: {detail}"
  | serialization misfit => misfit.message?.map fun detail => s!"serialization error: {detail}"
  | partialBurnUpdateRejected block overlap incoming =>
    some s!"partial burn update rejected for block {block}: {overlap} of {incoming} transactions already applied"

def body (e : IndexError) : Json :=
  .object [("error", .object
    (("code", Json.ofNat e.code) :: (e.message?.map fun m => ("message", Json.text m)).toList))]

end IndexError

def OrdinalFault.toError (fault : OrdinalFault) : IndexError :=
  .ordinalOverflow fault.message

def KeyFault.toError (fault : KeyFault) : IndexError :=
  .invalidKey fault.message

def FilterFault.toError (fault : FilterFault) : IndexError :=
  .invalidFilter fault.message

end ChainIndex
