import ChainIndex.Config
import ChainIndex.Record.Entry

/-!
This module contains the service, which keeps a listing of every kind of record. The ledger of burned fees
and the states of swaps are the ones that events are merged into.
-/

namespace ChainIndex

structure Service where
  transactions : Listing Transaction
  delegations : Listing Delegation
  rewardClaims : Listing RewardClaim
  withdrawRequests : Listing WithdrawRequest
  epochs : Listing Epoch
  contracts : Listing Contract
  tokenTransactions : Listing TokenTransaction
  reconciler : Reconciler

namespace Service

def listing (s : Service) : (kind : RecordKind) → Listing kind.Entry
  | .transaction => s.transactions
  | .delegation => s.delegations
  | .rewardClaim => s.rewardClaims
  | .withdrawRequest => s.withdrawRequests
  | .epoch => s.epochs
  | .contract => s.contracts
  | .tokenTransaction => s.tokenTransactions
  | .swap => s.reconciler.swaps
  | .burn => s.reconciler.burns

def setListing (s : Service) : (kind : RecordKind) → Listing kind.Entry → Service
  | .transaction, transactions => { s with transactions }
  | .delegation, delegations => { s with delegations }
  | .rewardClaim, rewardClaims => { s with rewardClaims }
  | .withdrawRequest, withdrawRequests => { s with withdrawRequests }
  | .epoch, epochs => { s with epochs }
  | .contract, contracts => { s with contracts }
  | .tokenTransaction, tokenTransactions => { s with tokenTransactions }
  | .swap, swaps => { s with reconciler := { s.reconciler with swaps } }
  | .burn, burns => { s with reconciler := { s.reconciler with burns } }

def create (precision : UInt8) (capacities : Option (Nat × Nat)) : Service where
  transactions := .create capacities
  delegations := .create capacities
  rewardClaims := .create capacities
  withdrawRequests := .create capacities
  epochs := .create capacities
  contracts := .create capacities
  tokenTransactions := .create capacities
  reconciler := .create precision capacities

def hasScheme (url : String) : Bool :=
  match Split.first ':' url.toList with
  | some (c :: rest, _) => c.isAlpha && rest.all fun c => c.isAlphanum || "+-.".contains c
  | _ => false

/--
The service for a configuration. A service over a database needs one that can be reached.
-/
def ofConfig (config : Config) : Except IndexError Service :=
  match config.backend with
  | .memory =>
    let capacities := (config.recordCacheCapacity.toNat, config.recentCapacity.toNat)
    .ok (create config.swapPrecision (if config.cacheEnabled then some capacities else none))
  | .postgres =>
    if hasScheme config.databaseUrl then
      .error (.storage "pool timed out while waiting for an open connection")
    else .error (.storage "error with configuration: relative URL without a base")

end Service

end ChainIndex
