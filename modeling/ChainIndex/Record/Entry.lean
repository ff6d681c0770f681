import ChainIndex.Record.Burn
import ChainIndex.Record.Contract
import ChainIndex.Record.Epoch
import ChainIndex.Record.Staking
import ChainIndex.Record.Swap
import ChainIndex.Record.TokenTransaction
import ChainIndex.Record.Transaction

/-!
This module contains the type of the records of every kind, so that what holds for all kinds can be said
and done once.
-/

namespace ChainIndex

namespace RecordKind

abbrev Entry : RecordKind → Type
  | transaction => Transaction
  | delegation => Delegation
  | rewardClaim => RewardClaim
  | withdrawRequest => WithdrawRequest
  | epoch => Epoch
  | contract => Contract
  | tokenTransaction => TokenTransaction
  | swap => SwapState
  | burn => BurnEntry

abbrev EntryKey : RecordKind → Type
  | transaction => TxHash
  | delegation => DelegationKey
  | rewardClaim => LogKey
  | withdrawRequest => WithdrawRequestKey
  | epoch => UInt64
  | contract => Address
  | tokenTransaction => LogKey
  | swap => SwapKey
  | burn => UInt64

instance : (kind : RecordKind) → RecordKey kind.EntryKey
  | transaction => inferInstanceAs (RecordKey TxHash)
  | delegation => inferInstanceAs (RecordKey DelegationKey)
  | rewardClaim | tokenTransaction => inferInstanceAs (RecordKey LogKey)
  | withdrawRequest => inferInstanceAs (RecordKey WithdrawRequestKey)
  | epoch | burn => inferInstanceAs (RecordKey UInt64)
  | contract => inferInstanceAs (RecordKey Address)
  | swap => inferInstanceAs (RecordKey SwapKey)

instance : (kind : RecordKind) → Record kind.Entry kind.EntryKey
  | transaction => inferInstanceAs (Record Transaction TxHash)
  | delegation => inferInstanceAs (Record Delegation DelegationKey)
  | rewardClaim => inferInstanceAs (Record RewardClaim LogKey)
  | withdrawRequest => inferInstanceAs (Record WithdrawRequest WithdrawRequestKey)
  | epoch => inferInstanceAs (Record Epoch UInt64)
  | contract => inferInstanceAs (Record Contract Address)
  | tokenTransaction => inferInstanceAs (Record TokenTransaction LogKey)
  | swap => inferInstanceAs (Record SwapState SwapKey)
  | burn => inferInstanceAs (Record BurnEntry UInt64)

theorem kind_entry (kind : RecordKind) : Record.kind kind.Entry = kind := by
  cases kind <;> rfl

end RecordKind

end ChainIndex
