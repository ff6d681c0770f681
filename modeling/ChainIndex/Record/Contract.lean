import ChainIndex.Record.Basic
import ChainIndex.Time.Json

/-!
This module contains deployed contracts.
-/

namespace ChainIndex

structure Contract where
  address : Address
  deploymentTx : TxHash
  blockNumber : UInt64
  name : Option String
  validated : Bool
  deployedAt : Timestamp
  ordinal : Ordinal
deriving DecidableEq

namespace Contract

def create (address : Address) (tx : TxHash) (position : ChainPosition) (time : Timestamp) :
    Except OrdinalFault Contract := do
  let ordinal ← Ordinal.ofPosition position
  return ⟨address, tx, position.block, none, false, time, ordinal⟩

def fields : Fields Contract :=
  mk <$> .required "address" Address.ofJson
    <*> .required "deployment_tx" TxHash.ofJson
    <*> .required "block_number" Json.readUInt64
    <*> .optional "name" Json.readText
    <*> .required "validated" Json.readBool
    <*> .required "deployed_at" Timestamp.ofJson
    <*> .required "ordinal_index" Ordinal.ofJson

def toJson (c : Contract) : Json :=
  .object [
    ("address", c.address.toJson),
    ("deployment_tx", c.deploymentTx.toJson),
    ("block_number", .ofUInt64 c.blockNumber),
    ("name", .ofOption Json.text c.name),
    ("validated", .bool c.validated),
    ("deployed_at", c.deployedAt.toJson),
    ("ordinal_index", c.ordinal.toJson)]

theorem read_toJson (c : Contract) : fields.read c.toJson = .ok c := by
  have name : Fields.orNull Json.readText (.ofOption Json.text c.name) = .ok c.name :=
    Fields.orNull_text c.name
  simp [fields, toJson, Fields.visit, Fields.required, Fields.optional, List.lookup_cons, Json.readBool,
    Except.map, Except.bind, bind, name]

instance : Record Contract Address where
  kind := .contract
  key := address
  ordinal := ordinal
  setOrdinal o c := { c with ordinal := o }
  toJson := toJson
  ofJson := fields.read
  key_setOrdinal _ _ := rfl
  ordinal_setOrdinal _ _ := rfl
  setOrdinal_ordinal _ := rfl
  setOrdinal_setOrdinal _ _ _ := rfl
  ofJson_toJson := read_toJson

end Contract

end ChainIndex
