import ChainIndex.Chain.Amount
import ChainIndex.Record.Basic
import ChainIndex.Time.Json

/-!
This module contains the state of a swap on a pair of tokens, with the trade's amounts and the pair's
reserves after it.
-/

namespace ChainIndex

inductive SwapType where
  | swap
  | sync
deriving DecidableEq

namespace SwapType

def named : List (String × SwapType) :=
  [("swap", swap), ("sync", sync)]

def name : SwapType → String
  | swap => "swap"
  | sync => "sync"

def ofJson : Json → Except Misfit SwapType :=
  Json.readEnum named

def toJson (t : SwapType) : Json :=
  .text t.name

@[simp]
theorem ofJson_toJson (t : SwapType) : ofJson t.toJson = .ok t := by
  cases t <;> rfl

end SwapType

structure TradeAmounts where
  in0 : Amount
  out0 : Amount
  in1 : Amount
  out1 : Amount
deriving DecidableEq

namespace TradeAmounts

def zero : TradeAmounts :=
  ⟨.zero, .zero, .zero, .zero⟩

def fields : Fields TradeAmounts :=
  mk <$> .required "amount0_in" Amount.ofJson
    <*> .required "amount0_out" Amount.ofJson
    <*> .required "amount1_in" Amount.ofJson
    <*> .required "amount1_out" Amount.ofJson

end TradeAmounts

structure Reserves where
  reserve0 : Amount
  reserve1 : Amount
deriving DecidableEq

namespace Reserves

def zero : Reserves :=
  ⟨.zero, .zero⟩

def fields : Fields Reserves :=
  mk <$> .required "reserve0" Amount.ofJson
    <*> .required "reserve1" Amount.ofJson

def toJson (r : Reserves) : Json :=
  .object [("reserve0", r.reserve0.toJson), ("reserve1", r.reserve1.toJson)]

end Reserves

structure PairDecimals where
  decimals0 : UInt8
  decimals1 : UInt8
deriving DecidableEq

def PairDecimals.fields : Fields PairDecimals :=
  mk <$> .required "decimals0" Json.readUInt8
    <*> .required "decimals1" Json.readUInt8

structure SwapState where
  key : SwapKey
  swapType : SwapType
  pair : Address
  txHash : TxHash
  blockNumber : UInt64
  amounts : TradeAmounts
  reserves : Reserves
  decimals : PairDecimals
  timestamp : Timestamp
  ordinal : Ordinal
deriving DecidableEq

namespace SwapState

def ofTrade (pair : Address) (tx : TxHash) (position : ChainPosition) (amounts : TradeAmounts)
    (decimals : PairDecimals) (time : Timestamp) : Except OrdinalFault SwapState := do
  let ordinal ← Ordinal.ofPosition position
  return ⟨.derive tx pair, .swap, pair, tx, position.block, amounts, .zero, decimals, time, ordinal⟩

def ofSnapshot (pair : Address) (tx : TxHash) (position : ChainPosition) (reserves : Reserves)
    (decimals : PairDecimals) (time : Timestamp) : Except OrdinalFault SwapState := do
  let ordinal ← Ordinal.ofPosition position
  return ⟨.derive tx pair, .sync, pair, tx, position.block, .zero, reserves, decimals, time, ordinal⟩

def legs (s : SwapState) : Amount × Amount :=
  (s.amounts.in0 + s.amounts.out0, s.amounts.in1 + s.amounts.out1)

def hasDustLegs (s : SwapState) (precision : UInt8) : Bool :=
  (s.legs.1.truncate s.decimals.decimals0 precision).isZero &&
    (s.legs.2.truncate s.decimals.decimals1 precision).isZero

def isDust (s : SwapState) (precision : UInt8) : Bool :=
  s.swapType == .swap && s.hasDustLegs precision

def ownFields : Fields (TradeAmounts → Reserves → PairDecimals → SwapState) :=
  (fun key swapType pair txHash blockNumber timestamp ordinal amounts reserves decimals =>
      ⟨key, swapType, pair, txHash, blockNumber, amounts, reserves, decimals, timestamp, ordinal⟩)
    <$> .required "key" SwapKey.ofJson
    <*> .required "swap_type" SwapType.ofJson
    <*> .required "pair" Address.ofJson
    <*> .required "tx_hash" TxHash.ofJson
    <*> .required "block_number" Json.readUInt64
    <*> .required "timestamp" Timestamp.ofJson
    <*> .required "ordinal_index" Ordinal.ofJson

def ofJson (j : Json) : Except Misfit SwapState := do
  let build ← ownFields.readNamed j
  let amounts ← TradeAmounts.fields.readNamed j
  let reserves ← Reserves.fields.readNamed j
  let decimals ← PairDecimals.fields.readNamed j
  return build amounts reserves decimals

def toJson (s : SwapState) : Json :=
  .object [
    ("key", s.key.toJson),
    ("swap_type", s.swapType.toJson),
    ("pair", s.pair.toJson),
    ("tx_hash", s.txHash.toJson),
    ("block_number", .ofUInt64 s.blockNumber),
    ("amount0_in", s.amounts.in0.toJson),
    ("amount0_out", s.amounts.out0.toJson),
    ("amount1_in", s.amounts.in1.toJson),
    ("amount1_out", s.amounts.out1.toJson),
    ("reserve0", s.reserves.reserve0.toJson),
    ("reserve1", s.reserves.reserve1.toJson),
    ("decimals0", .ofUInt8 s.decimals.decimals0),
    ("decimals1", .ofUInt8 s.decimals.decimals1),
    ("timestamp", s.timestamp.toJson),
    ("ordinal_index", s.ordinal.toJson)]

theorem ofJson_toJson (s : SwapState) : ofJson s.toJson = .ok s := by
  simp [ofJson, ownFields, TradeAmounts.fields, Reserves.fields, PairDecimals.fields, toJson,
    Fields.visit, Fields.required, List.lookup_cons, Except.map, Except.bind, bind, pure, Except.pure]

instance : Record SwapState SwapKey where
  kind := .swap
  key := key
  ordinal := ordinal
  setOrdinal o s := { s with ordinal := o }
  toJson := toJson
  ofJson := ofJson
  key_setOrdinal _ _ := rfl
  ordinal_setOrdinal _ _ := rfl
  setOrdinal_ordinal _ := rfl
  setOrdinal_setOrdinal _ _ _ := rfl
  ofJson_toJson := ofJson_toJson

end SwapState

end ChainIndex
