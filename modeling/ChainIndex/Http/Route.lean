import ChainIndex.Kind
import ChainIndex.Text.Split

/-!
This module contains the routes that requests are answered on.
-/

namespace ChainIndex

inductive Route where
  | health
  | listing (kind : RecordKind)
  | burn (segment : String)
deriving DecidableEq

namespace Route

def listingSegment : RecordKind → String
  | .transaction => "transactions"
  | .delegation => "delegations"
  | .rewardClaim => "reward-claims"
  | .withdrawRequest => "withdraw-requests"
  | .epoch => "epochs"
  | .contract => "contracts"
  | .tokenTransaction => "token-transactions"
  | .swap => "swaps"
  | .burn => "burns"

def ofPath? (path : List Char) : Option Route :=
  match (Split.all '/' path).map String.ofList with
  | ["", "health"] => some health
  | ["", "api", "v1", segment] =>
    (RecordKind.all.find? fun kind => listingSegment kind == segment).map listing
  | ["", "api", "v1", "burns", segment] => if segment.isEmpty then none else some (burn segment)
  | _ => none

end Route

end ChainIndex
