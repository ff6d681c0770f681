import ChainIndex.Chain.Amount
import ChainIndex.Record.Basic
import ChainIndex.Time.Json

/-!
This module contains the records of staking: delegated stake, claimed rewards, and requests to withdraw
stake.
-/

namespace ChainIndex

structure Delegation where
  delegator : Address
  validatorId : UInt64
  amount : Amount
  createdTx : TxHash
  createdBlock : UInt64
  createdAt : Timestamp
  ordinal : Ordinal
deriving DecidableEq

namespace Delegation

def create (key : DelegationKey) (amount : Amount) (tx : TxHash) (position : ChainPosition)
    (time : Timestamp) : Except OrdinalFault Delegation := do
  let ordinal ← Ordinal.ofPosition position
  return ⟨key.delegator, key.validatorId, amount, tx, position.block, time, ordinal⟩

def fields : Fields Delegation :=
  mk <$> .required "delegator" Address.ofJson
    <*> .required "validator_id" Json.readUInt64
    <*> .required "amount" Amount.ofJson
    <*> .required "created_tx" TxHash.ofJson
    <*> .required "created_block" Json.readUInt64
    <*> .required "created_at" Timestamp.ofJson
    <*> .required "ordinal_index" Ordinal.ofJson

def toJson (d : Delegation) : Json :=
  .object [
    ("delegator", d.delegator.toJson),
    ("validator_id", .ofUInt64 d.validatorId),
    ("amount", d.amount.toJson),
    ("created_tx", d.createdTx.toJson),
    ("created_block", .ofUInt64 d.createdBlock),
    ("created_at", d.createdAt.toJson),
    ("ordinal_index", d.ordinal.toJson)]

theorem read_toJson (d : Delegation) : fields.read d.toJson = .ok d := by
  simp [fields, toJson, Fields.visit, Fields.required, List.lookup_cons, Except.map, Except.bind, bind]

instance : Record Delegation DelegationKey where
  kind := .delegation
  key d := ⟨d.delegator, d.validatorId⟩
  ordinal := ordinal
  setOrdinal o d := { d with ordinal := o }
  toJson := toJson
  ofJson := fields.read
  key_setOrdinal _ _ := rfl
  ordinal_setOrdinal _ _ := rfl
  setOrdinal_ordinal _ := rfl
  setOrdinal_setOrdinal _ _ _ := rfl
  ofJson_toJson := read_toJson

end Delegation

structure RewardClaim where
  txHash : TxHash
  logIndex : UInt32
  delegator : Address
  validatorId : UInt64
  amount : Amount
  restaked : Bool
  blockNumber : UInt64
  claimedAt : Timestamp
  ordinal : Ordinal
deriving DecidableEq

namespace RewardClaim

def create (tx : TxHash) (position : ChainPosition) (delegator : Address) (validatorId : UInt64)
    (amount : Amount) (restaked : Bool) (time : Timestamp) : Except OrdinalFault RewardClaim := do
  let ordinal ← Ordinal.ofPosition position
  return ⟨tx, position.logIndex, delegator, validatorId, amount, restaked, position.block, time, ordinal⟩

def fields : Fields RewardClaim :=
  mk <$> .required "tx_hash" TxHash.ofJson
    <*> .required "log_index" Json.readUInt32
    <*> .required "delegator" Address.ofJson
    <*> .required "validator_id" Json.readUInt64
    <*> .required "amount" Amount.ofJson
    <*> .required "restaked" Json.readBool
    <*> .required "block_number" Json.readUInt64
    <*> .required "claimed_at" Timestamp.ofJson
    <*> .required "ordinal_index" Ordinal.ofJson

def toJson (c : RewardClaim) : Json :=
  .object [
    ("tx_hash", c.txHash.toJson),
    ("log_index", .ofUInt32 c.logIndex),
    ("delegator", c.delegator.toJson),
    ("validator_id", .ofUInt64 c.validatorId),
    ("amount", c.amount.toJson),
    ("restaked", .bool c.restaked),
    ("block_number", .ofUInt64 c.blockNumber),
    ("claimed_at", c.claimedAt.toJson),
    ("ordinal_index", c.ordinal.toJson)]

theorem read_toJson (c : RewardClaim) : fields.read c.toJson = .ok c := by
  simp [fields, toJson, Fields.visit, Fields.required, List.lookup_cons, Json.readBool, Except.map,
    Except.bind, bind]

instance : Record RewardClaim LogKey where
  kind := .rewardClaim
  key c := ⟨c.txHash, c.logIndex⟩
  ordinal := ordinal
  setOrdinal o c := { c with ordinal := o }
  toJson := toJson
  ofJson := fields.read
  key_setOrdinal _ _ := rfl
  ordinal_setOrdinal _ _ := rfl
  setOrdinal_ordinal _ := rfl
  setOrdinal_setOrdinal _ _ _ := rfl
  ofJson_toJson := read_toJson

end RewardClaim

structure WithdrawRequest where
  owner : Address
  requestId : UInt64
  validatorId : UInt64
  amount : Amount
  requestTx : TxHash
  blockNumber : UInt64
  requestedAt : Timestamp
  withdrawnAt : Option Timestamp
  ordinal : Ordinal
deriving DecidableEq

namespace WithdrawRequest

def create (key : WithdrawRequestKey) (validatorId : UInt64) (amount : Amount) (tx : TxHash)
    (position : ChainPosition) (time : Timestamp) : Except OrdinalFault WithdrawRequest := do
  let ordinal ← Ordinal.ofPosition position
  return ⟨key.owner, key.requestId, validatorId, amount, tx, position.block, time, none, ordinal⟩

def fields : Fields WithdrawRequest :=
  mk <$> .required "owner" Address.ofJson
    <*> .required "request_id" Json.readUInt64
    <*> .required "validator_id" Json.readUInt64
    <*> .required "amount" Amount.ofJson
    <*> .required "request_tx" TxHash.ofJson
    <*> .required "block_number" Json.readUInt64
    <*> .required "requested_at" Timestamp.ofJson
    <*> .optional "withdrawn_at" Timestamp.ofJson
    <*> .required "ordinal_index" Ordinal.ofJson

def toJson (r : WithdrawRequest) : Json :=
  .object [
    ("owner", r.owner.toJson),
    ("request_id", .ofUInt64 r.requestId),
    ("validator_id", .ofUInt64 r.validatorId),
    ("amount", r.amount.toJson),
    ("request_tx", r.requestTx.toJson),
    ("block_number", .ofUInt64 r.blockNumber),
    ("requested_at", r.requestedAt.toJson),
    ("withdrawn_at", .ofOption Timestamp.toJson r.withdrawnAt),
    ("ordinal_index", r.ordinal.toJson)]

theorem read_toJson (r : WithdrawRequest) : fields.read r.toJson = .ok r := by
  have withdrawn :=
    Fields.orNull_ofOption Timestamp.ofJson_toJson (fun _ h => nomatch h) r.withdrawnAt
  simp [fields, toJson, Fields.visit, Fields.required, Fields.optional, List.lookup_cons, Except.map,
    Except.bind, bind, withdrawn]

instance : Record WithdrawRequest WithdrawRequestKey where
  kind := .withdrawRequest
  key r := ⟨r.owner, r.requestId⟩
  ordinal := ordinal
  setOrdinal o r := { r with ordinal := o }
  toJson := toJson
  ofJson := fields.read
  key_setOrdinal _ _ := rfl
  ordinal_setOrdinal _ _ := rfl
  setOrdinal_ordinal _ := rfl
  setOrdinal_setOrdinal _ _ _ := rfl
  ofJson_toJson := read_toJson

end WithdrawRequest

end ChainIndex
