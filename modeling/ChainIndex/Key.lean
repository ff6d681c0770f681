import ChainIndex.Chain.Bytes
import ChainIndex.Digest.Sha256
import ChainIndex.Text.Split

/-!
This module contains the keys that records are filed under. A key has one canonical text; other texts are
read as well, but they all lead to a key whose canonical text leads back to it.
-/

namespace ChainIndex

class RecordKey (κ : Type) where
  encode : κ → String
  decode : String → Except KeyFault κ
  decode_encode : ∀ key, decode (encode key) = .ok key

namespace RecordKey

theorem encode_inj {κ : Type} [RecordKey κ] {a b : κ} (h : encode a = encode b) : a = b := by
  have hb := decode_encode b
  rw [← h, decode_encode a] at hb
  exact Except.ok.inj hb

def maxId : Nat := UInt64.size - 1

def readPart (what raw : String) : Except KeyFault UInt64 :=
  ((Numeral.readNat maxId raw.toList).map UInt64.ofNat).mapError (.badPart what raw)

def splitPair (what raw : String) : Except KeyFault (String × String) :=
  match Split.first ':' raw.toList with
  | some (a, b) => .ok (String.ofList a, String.ofList b)
  | none => .error (.unseparated what raw)

def encodePair {n : Nat} (bytes : Bytes n) (number : Nat) : String :=
  String.ofList (bytes.write ++ ':' :: Numeral.write number)

theorem splitPair_encodePair {n : Nat} (what : String) (bytes : Bytes n) (number : Nat) :
    splitPair what (encodePair bytes number) =
      .ok (bytes.toString, String.ofList (Numeral.write number)) := by
  unfold splitPair encodePair
  rw [String.toList_ofList]
  rw [Split.first_append bytes.separator_not_mem_write]
  dsimp only [Bytes.toString]

theorem readNat_id (n : UInt64) : Numeral.readNat maxId (Numeral.write n.toNat) = .ok n.toNat :=
  Numeral.readNat_write (Nat.le_sub_one_of_lt n.toNat_lt)

theorem readPart_write (what : String) (n : UInt64) :
    readPart what (String.ofList (Numeral.write n.toNat)) = .ok n := by
  unfold readPart
  rw [String.toList_ofList, readNat_id]
  rw [Except.map, UInt64.ofNat_toNat]
  rfl

instance : RecordKey TxHash where
  encode := TxHash.toString
  decode := TxHash.ofString
  decode_encode := TxHash.ofString_toString

instance : RecordKey Address where
  encode := Address.toString
  decode := Address.ofString
  decode_encode := Address.ofString_toString

instance : RecordKey UInt64 where
  encode n := String.ofList (Numeral.write n.toNat)
  decode raw := ((Numeral.readNat maxId raw.toList).map UInt64.ofNat).mapError (.badNumber raw)
  decode_encode n := by
    rw [String.toList_ofList, readNat_id]
    rw [Except.map, UInt64.ofNat_toNat]
    rfl

end RecordKey

structure LogKey where
  txHash : TxHash
  logIndex : UInt32
deriving DecidableEq

namespace LogKey

open RecordKey

def encode (key : LogKey) : String :=
  encodePair key.txHash.bytes key.logIndex.toNat

/--
Reads the index before the hash, so a fault of the index is the one that counts. The index is read as a
number of 64 bits first, so it is found to be too large only after all of it has been found to be a number.
-/
def decode (raw : String) : Except KeyFault LogKey := do
  let (hash, index) ← splitPair "log key" raw
  let n ← readPart "log index" index
  if n.toNat < UInt32.size then return ⟨← TxHash.ofString hash, n.toUInt32⟩
  else .error (.badPart "log index" index .tooLarge)

theorem decode_encode (key : LogKey) : decode key.encode = .ok key := by
  have hindex : key.logIndex.toNat = key.logIndex.toUInt64.toNat :=
    (UInt32.toNat_toUInt64 key.logIndex).symm
  have hlt : key.logIndex.toUInt64.toNat < UInt32.size := by
    rw [← hindex]
    exact key.logIndex.toNat_lt
  have hhash : TxHash.ofString key.txHash.bytes.toString = .ok key.txHash :=
    TxHash.ofString_toString key.txHash
  unfold decode encode
  rw [splitPair_encodePair]
  dsimp only [bind, Except.bind]
  rw [hindex, readPart_write]
  dsimp only
  rw [if_pos hlt, hhash]
  dsimp only [pure, Except.pure]
  rw [UInt32.toUInt32_toUInt64]

instance : RecordKey LogKey where
  encode := encode
  decode := decode
  decode_encode := decode_encode

end LogKey

structure DelegationKey where
  delegator : Address
  validatorId : UInt64
deriving DecidableEq

structure WithdrawRequestKey where
  owner : Address
  requestId : UInt64
deriving DecidableEq

namespace RecordKey

def readAddressPair (what part raw : String) : Except KeyFault (Address × UInt64) := do
  let (address, number) ← splitPair what raw
  let address ← Address.ofString address
  let number ← readPart part number
  return (address, number)

theorem readAddressPair_encodePair (what part : String) (address : Address) (n : UInt64) :
    readAddressPair what part (encodePair address.bytes n.toNat) = .ok (address, n) := by
  have haddress : Address.ofString address.bytes.toString = .ok address :=
    Address.ofString_toString address
  unfold readAddressPair
  rw [splitPair_encodePair]
  dsimp only [bind, Except.bind]
  rw [haddress]
  dsimp only
  rw [readPart_write]
  rfl

instance : RecordKey DelegationKey where
  encode key := encodePair key.delegator.bytes key.validatorId.toNat
  decode raw := (readAddressPair "delegation key" "validator id" raw).map fun (a, n) => ⟨a, n⟩
  decode_encode key := by rw [readAddressPair_encodePair, Except.map]

instance : RecordKey WithdrawRequestKey where
  encode key := encodePair key.owner.bytes key.requestId.toNat
  decode raw := (readAddressPair "withdraw request key" "request id" raw).map fun (a, n) => ⟨a, n⟩
  decode_encode key := by rw [readAddressPair_encodePair, Except.map]

end RecordKey

structure SwapKey where
  bytes : Bytes 32
deriving DecidableEq

namespace SwapKey

def derive (tx : TxHash) (pair : Address) : SwapKey :=
  ⟨⟨Sha256.digest (tx.bytes.toList ++ pair.bytes.toList), Sha256.length_digest _⟩⟩

def toString (key : SwapKey) : String :=
  key.bytes.toString

def ofString (raw : String) : Except KeyFault SwapKey :=
  match Bytes.read 32 "transaction hash" raw with
  | .ok bytes => .ok ⟨bytes⟩
  -- What is wrong with the text is not told, as it is for a hash.
  | .error _ => .error (.badSwapKey raw)

theorem ofString_toString (key : SwapKey) : ofString key.toString = .ok key := by
  rw [ofString, toString, Bytes.read_toString]

def ofJson (j : Json) : Except Misfit SwapKey := do
  (ofString (← j.readText)).mapError KeyFault.misfit

def toJson (key : SwapKey) : Json :=
  .text key.toString

@[simp]
theorem ofJson_toJson (key : SwapKey) : ofJson key.toJson = .ok key := by
  unfold ofJson toJson
  rw [Json.bind_readText, ofString_toString]
  rfl

instance : RecordKey SwapKey where
  encode := toString
  decode := ofString
  decode_encode := ofString_toString

end SwapKey

end ChainIndex
