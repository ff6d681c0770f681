import ChainIndex.Chain.Amount
import ChainIndex.Record.Basic
import ChainIndex.Time.Json

/-!
This module contains sealed epochs.
-/

namespace ChainIndex

/--
A sealed epoch. Epochs are numbered in order, so the number is the ordinal as well.
-/
structure Epoch where
  id : UInt64
  endTime : Timestamp
  totalSupply : Amount
  baseRewardPerSecond : Amount
  fee : Amount
  ordinal : Ordinal
deriving DecidableEq

namespace Epoch

def create (id : UInt64) (endTime : Timestamp) (supply reward fee : Amount) : Epoch :=
  ⟨id, endTime, supply, reward, fee, ⟨id⟩⟩

def fields : Fields Epoch :=
  mk <$> .required "id" Json.readUInt64
    <*> .required "end_time" Timestamp.ofJson
    <*> .required "total_supply" Amount.ofJson
    <*> .required "base_reward_per_second" Amount.ofJson
    <*> .required "epoch_fee" Amount.ofJson
    <*> .required "ordinal_index" Ordinal.ofJson

def toJson (e : Epoch) : Json :=
  .object [
    ("id", .ofUInt64 e.id),
    ("end_time", e.endTime.toJson),
    ("total_supply", e.totalSupply.toJson),
    ("base_reward_per_second", e.baseRewardPerSecond.toJson),
    ("epoch_fee", e.fee.toJson),
    ("ordinal_index", e.ordinal.toJson)]

theorem read_toJson (e : Epoch) : fields.read e.toJson = .ok e := by
  simp [fields, toJson, Fields.visit, Fields.required, List.lookup_cons, Except.map, Except.bind, bind]

instance : Record Epoch UInt64 where
  kind := .epoch
  key := id
  ordinal := ordinal
  setOrdinal o e := { e with ordinal := o }
  toJson := toJson
  ofJson := fields.read
  key_setOrdinal _ _ := rfl
  ordinal_setOrdinal _ _ := rfl
  setOrdinal_ordinal _ := rfl
  setOrdinal_setOrdinal _ _ _ := rfl
  ofJson_toJson := read_toJson

end Epoch

end ChainIndex
