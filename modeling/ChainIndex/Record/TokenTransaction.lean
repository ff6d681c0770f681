import ChainIndex.Chain.Amount
import ChainIndex.Record.Basic
import ChainIndex.Time.Json

/-!
This module contains the token transfers that token contracts log.
-/

namespace ChainIndex

inductive TokenType where
  | erc20
  | erc721
  | erc1155
deriving DecidableEq

namespace TokenType

def named : List (String × TokenType) :=
  [("erc20", erc20), ("erc721", erc721), ("erc1155", erc1155)]

def name : TokenType → String
  | erc20 => "erc20"
  | erc721 => "erc721"
  | erc1155 => "erc1155"

def ofJson : Json → Except Misfit TokenType :=
  Json.readEnum named

def toJson (t : TokenType) : Json :=
  .text t.name

@[simp]
theorem ofJson_toJson (t : TokenType) : ofJson t.toJson = .ok t := by
  cases t <;> rfl

end TokenType

structure TokenTransaction where
  txHash : TxHash
  logIndex : UInt32
  blockNumber : UInt64
  token : Address
  tokenType : TokenType
  sender : Address
  recipient : Address
  tokenId : Option String
  amount : Amount
  timestamp : Timestamp
  ordinal : Ordinal
deriving DecidableEq

namespace TokenTransaction

def create (tx : TxHash) (position : ChainPosition) (token : Address) (tokenType : TokenType)
    (sender recipient : Address) (amount : Amount) (time : Timestamp) :
    Except OrdinalFault TokenTransaction := do
  let ordinal ← Ordinal.ofPosition position
  return ⟨tx, position.logIndex, position.block, token, tokenType, sender, recipient, none, amount,
    time, ordinal⟩

def fields : Fields TokenTransaction :=
  mk <$> .required "tx_hash" TxHash.ofJson
    <*> .required "log_index" Json.readUInt32
    <*> .required "block_number" Json.readUInt64
    <*> .required "token" Address.ofJson
    <*> .required "token_type" TokenType.ofJson
    <*> .required "from" Address.ofJson
    <*> .required "to" Address.ofJson
    <*> .optional "token_id" Json.readText
    <*> .required "amount" Amount.ofJson
    <*> .required "timestamp" Timestamp.ofJson
    <*> .required "ordinal_index" Ordinal.ofJson

def toJson (t : TokenTransaction) : Json :=
  .object [
    ("tx_hash", t.txHash.toJson),
    ("log_index", .ofUInt32 t.logIndex),
    ("block_number", .ofUInt64 t.blockNumber),
    ("token", t.token.toJson),
    ("token_type", t.tokenType.toJson),
    ("from", t.sender.toJson),
    ("to", t.recipient.toJson),
    ("token_id", .ofOption Json.text t.tokenId),
    ("amount", t.amount.toJson),
    ("timestamp", t.timestamp.toJson),
    ("ordinal_index", t.ordinal.toJson)]

theorem read_toJson (t : TokenTransaction) : fields.read t.toJson = .ok t := by
  have id : Fields.orNull Json.readText (.ofOption Json.text t.tokenId) = .ok t.tokenId :=
    Fields.orNull_text t.tokenId
  simp [fields, toJson, Fields.visit, Fields.required, Fields.optional, List.lookup_cons, Except.map,
    Except.bind, bind, id]

instance : Record TokenTransaction LogKey where
  kind := .tokenTransaction
  key t := ⟨t.txHash, t.logIndex⟩
  ordinal := ordinal
  setOrdinal o t := { t with ordinal := o }
  toJson := toJson
  ofJson := fields.read
  key_setOrdinal _ _ := rfl
  ordinal_setOrdinal _ _ := rfl
  setOrdinal_ordinal _ := rfl
  setOrdinal_setOrdinal _ _ _ := rfl
  ofJson_toJson := read_toJson

end TokenTransaction

end ChainIndex
