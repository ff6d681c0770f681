import ChainIndex.Chain.Amount
import ChainIndex.Chain.TxSet
import ChainIndex.Record.Basic

/-!
This module contains the ledger of burned fees, which has one entry a block.
-/

namespace ChainIndex

@[ext]
structure BurnEntry where
  blockNumber : UInt64
  amount : Amount
  txs : TxSet
  ordinal : Ordinal
deriving DecidableEq

namespace BurnEntry

def create (block : UInt64) (amount : Amount) (txs : List TxHash) : Except OrdinalFault BurnEntry := do
  let ordinal ← Ordinal.ofPosition (.ofTransaction block 0)
  return ⟨block, amount, .ofList txs, ordinal⟩

def fields : Fields BurnEntry :=
  mk <$> .required "block_number" Json.readUInt64
    <*> .required "amount" Amount.ofJson
    <*> .required "tx_list" TxSet.ofJson
    <*> .required "ordinal_index" Ordinal.ofJson

def toJson (b : BurnEntry) : Json :=
  .object [
    ("block_number", .ofUInt64 b.blockNumber),
    ("amount", b.amount.toJson),
    ("tx_list", b.txs.toJson),
    ("ordinal_index", b.ordinal.toJson)]

theorem read_toJson (b : BurnEntry) : fields.read b.toJson = .ok b := by
  simp [fields, toJson, Fields.visit, Fields.required, List.lookup_cons, Except.map, Except.bind, bind]

instance : Record BurnEntry UInt64 where
  kind := .burn
  key := blockNumber
  ordinal := ordinal
  setOrdinal o b := { b with ordinal := o }
  toJson := toJson
  ofJson := fields.read
  key_setOrdinal _ _ := rfl
  ordinal_setOrdinal _ _ := rfl
  setOrdinal_ordinal _ := rfl
  setOrdinal_setOrdinal _ _ _ := rfl
  ofJson_toJson := read_toJson

end BurnEntry

end ChainIndex
