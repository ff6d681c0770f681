import ChainIndex.Json.Fields

/-!
This module contains positions on the chain and the ordinals that stand for them. An ordinal is a number
of three digits in mixed radix, block before transaction before log, so ordinals compare as positions do.
-/

namespace ChainIndex

structure ChainPosition where
  block : UInt64
  txIndex : UInt32
  logIndex : UInt32
deriving DecidableEq

@[ext]
structure Ordinal where
  value : UInt64
deriving DecidableEq

inductive OrdinalFault where
  | blockTooHigh (block : UInt64)
  | txIndexTooHigh (index : UInt32)
  | logIndexTooHigh (index : UInt32)
  | exceedsSigned (ordinal : Ordinal)
  | negative (value : Int64)
deriving DecidableEq

namespace ChainPosition

def txIndexBits : Nat := 14

def logIndexBits : Nat := 10

/--
The highest block whose ordinals fit a signed number of 64 bits.
-/
def maxBlock : Nat := Nat.pow 2 (63 - txIndexBits - logIndexBits) - 1

def ofTransaction (block : UInt64) (txIndex : UInt32) : ChainPosition :=
  ⟨block, txIndex, 0⟩

def fields : Fields ChainPosition :=
  mk <$> .required "block" Json.readUInt64
    <*> .required "tx_index" Json.readUInt32
    <*> .required "log_index" Json.readUInt32

end ChainPosition

open ChainPosition in
def OrdinalFault.message : OrdinalFault → String
  | .blockTooHigh block => s!"block {block} exceeds {maxBlock}"
  | .txIndexTooHigh index => s!"transaction index {index} exceeds {txIndexBits} bits"
  | .logIndexTooHigh index => s!"log index {index} exceeds {logIndexBits} bits"
  | .exceedsSigned ordinal => s!"{ordinal.value} exceeds i64"
  | .negative value => s!"negative ordinal {value}"

namespace Ordinal

open ChainPosition

instance : LT Ordinal where
  lt a b := a.value < b.value

instance : LE Ordinal where
  le a b := a.value ≤ b.value

instance (a b : Ordinal) : Decidable (a < b) :=
  inferInstanceAs (Decidable (a.value < b.value))

def ofPosition (p : ChainPosition) : Except OrdinalFault Ordinal :=
  if maxBlock < p.block.toNat then .error (.blockTooHigh p.block)
  else if Nat.pow 2 txIndexBits ≤ p.txIndex.toNat then .error (.txIndexTooHigh p.txIndex)
  else if Nat.pow 2 logIndexBits ≤ p.logIndex.toNat then .error (.logIndexTooHigh p.logIndex)
  else .ok ⟨UInt64.ofNat
    ((p.block.toNat * Nat.pow 2 txIndexBits + p.txIndex.toNat) * Nat.pow 2 logIndexBits + p.logIndex.toNat)⟩

def toSigned (o : Ordinal) : Except OrdinalFault Int64 :=
  if o.value.toNat < UInt64.size / 2 then .ok o.value.toInt64 else .error (.exceedsSigned o)

def ofSigned (n : Int64) : Except OrdinalFault Ordinal :=
  if 0 ≤ n.toInt then .ok ⟨n.toUInt64⟩ else .error (.negative n)

def ofJson (j : Json) : Except Misfit Ordinal :=
  j.readUInt64.map mk

def toJson (o : Ordinal) : Json :=
  .ofUInt64 o.value

@[simp]
theorem ofJson_toJson (o : Ordinal) : ofJson o.toJson = .ok o := rfl

instance : Std.IsLinearOrder Ordinal where
  le_refl a := UInt64.le_refl a.value
  le_trans _ _ _ := UInt64.le_trans
  le_antisymm _ _ hab hba := Ordinal.ext (UInt64.le_antisymm hab hba)
  le_total a b := UInt64.le_total a.value b.value

instance : Std.LawfulOrderLT Ordinal where
  lt_iff a b := Std.LawfulOrderLT.lt_iff a.value b.value

end Ordinal

end ChainIndex
