/-!
This module contains the kinds of records that are indexed.
-/

namespace ChainIndex

inductive RecordKind where
  | transaction
  | delegation
  | rewardClaim
  | withdrawRequest
  | epoch
  | contract
  | tokenTransaction
  | swap
  | burn
deriving DecidableEq

namespace RecordKind

def all : List RecordKind :=
  [transaction, delegation, rewardClaim, withdrawRequest, epoch, contract, tokenTransaction, swap, burn]

def name : RecordKind → String
  | transaction => "transaction"
  | delegation => "delegation"
  | rewardClaim => "reward_claim"
  | withdrawRequest => "withdraw_request"
  | epoch => "epoch"
  | contract => "contract"
  | tokenTransaction => "token_transaction"
  | swap => "swap"
  | burn => "burn"

def ofName? (name : String) : Option RecordKind :=
  all.find? fun kind => kind.name == name

theorem ofName?_name (kind : RecordKind) : ofName? kind.name = some kind := by
  cases kind <;> decide

theorem name_inj {a b : RecordKind} (h : a.name = b.name) : a = b := by
  have hb := ofName?_name b
  rw [← h, ofName?_name a] at hb
  exact Option.some.inj hb

theorem separator_not_mem_name (kind : RecordKind) : ':' ∉ kind.name.toList := by
  cases kind <;> decide

end RecordKind

end ChainIndex
