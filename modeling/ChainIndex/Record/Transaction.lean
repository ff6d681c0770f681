import ChainIndex.Chain.Amount
import ChainIndex.Record.Basic
import ChainIndex.Time.Json

/-!
This module contains chain transactions.
-/

namespace ChainIndex

inductive TxStatus where
  | pending
  | succeeded
  | failed
deriving DecidableEq

namespace TxStatus

def named : List (String × TxStatus) :=
  [("pending", pending), ("succeeded", succeeded), ("failed", failed)]

def name : TxStatus → String
  | pending => "pending"
  | succeeded => "succeeded"
  | failed => "failed"

def ofJson : Json → Except Misfit TxStatus :=
  Json.readEnum named

def toJson (s : TxStatus) : Json :=
  .text s.name

@[simp]
theorem ofJson_toJson (s : TxStatus) : ofJson s.toJson = .ok s := by
  cases s <;> rfl

end TxStatus

structure Transaction where
  hash : TxHash
  blockNumber : UInt64
  txIndex : UInt32
  sender : Address
  recipient : Option Address
  value : Amount
  gasUsed : UInt64
  status : TxStatus
  timestamp : Timestamp
  ordinal : Ordinal
deriving DecidableEq

namespace Transaction

def create (hash : TxHash) (block : UInt64) (txIndex : UInt32) (sender : Address)
    (recipient : Option Address) (value : Amount) (status : TxStatus) (timestamp : Timestamp) :
    Except OrdinalFault Transaction := do
  let ordinal ← Ordinal.ofPosition (.ofTransaction block txIndex)
  return ⟨hash, block, txIndex, sender, recipient, value, 0, status, timestamp, ordinal⟩

def fields : Fields Transaction :=
  mk <$> .required "hash" TxHash.ofJson
    <*> .required "block_number" Json.readUInt64
    <*> .required "tx_index" Json.readUInt32
    <*> .required "from" Address.ofJson
    <*> .optional "to" Address.ofJson
    <*> .required "value" Amount.ofJson
    <*> .required "gas_used" Json.readUInt64
    <*> .required "status" TxStatus.ofJson
    <*> .required "timestamp" Timestamp.ofJson
    <*> .required "ordinal_index" Ordinal.ofJson

def toJson (t : Transaction) : Json :=
  .object [
    ("hash", t.hash.toJson),
    ("block_number", .ofUInt64 t.blockNumber),
    ("tx_index", .ofUInt32 t.txIndex),
    ("from", t.sender.toJson),
    ("to", .ofOption Address.toJson t.recipient),
    ("value", t.value.toJson),
    ("gas_used", .ofUInt64 t.gasUsed),
    ("status", t.status.toJson),
    ("timestamp", t.timestamp.toJson),
    ("ordinal_index", t.ordinal.toJson)]

theorem read_toJson (t : Transaction) : fields.read t.toJson = .ok t := by
  have recipient := Fields.orNull_ofOption Address.ofJson_toJson (fun _ h => nomatch h) t.recipient
  simp [fields, toJson, Fields.visit, Fields.required, Fields.optional, List.lookup_cons, Except.map,
    Except.bind, bind, recipient]

instance : Record Transaction TxHash where
  kind := .transaction
  key := hash
  ordinal := ordinal
  setOrdinal o t := { t with ordinal := o }
  toJson := toJson
  ofJson := fields.read
  key_setOrdinal _ _ := rfl
  ordinal_setOrdinal _ _ := rfl
  setOrdinal_ordinal _ := rfl
  setOrdinal_setOrdinal _ _ _ := rfl
  ofJson_toJson := read_toJson

end Transaction

end ChainIndex
