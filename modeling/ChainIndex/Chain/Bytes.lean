import ChainIndex.Text.Hex
import ChainIndex.Text.Numeral
import ChainIndex.Json.Fields

/-!
This module contains byte strings of fixed width, their marked hexadecimal text, and the faults of texts
that should be keys.
-/

namespace ChainIndex

inductive KeyFault where
  | unmarked (what raw : String)
  | badHex (what raw : String) (fault : Hex.Fault)
  | badSwapKey (raw : String)
  | badNumber (raw : String) (fault : Numeral.Fault)
  | badPart (what raw : String) (fault : Numeral.Fault)
  | unseparated (what raw : String)
  | unknownKind (raw : String)
deriving DecidableEq

def KeyFault.message : KeyFault → String
  | .unmarked what raw => s!"{what} `{raw}` is missing 0x prefix"
  | .badHex what raw fault => s!"{what} `{raw}`: {fault.message}"
  | .badSwapKey raw => s!"swap key `{raw}`"
  | .badNumber raw fault => s!"`{raw}`: {fault.message}"
  | .badPart what raw fault => s!"{what} `{raw}`: {fault.message}"
  | .unseparated what raw => s!"{what} `{raw}` is missing `:`"
  | .unknownKind raw => s!"unknown record kind `{raw}`"

def KeyFault.misfit (fault : KeyFault) : Misfit :=
  .refused s!"invalid key: {fault.message}"

@[ext]
structure Bytes (n : Nat) where
  toList : List UInt8
  length_toList : toList.length = n
deriving DecidableEq

namespace Bytes

variable {n : Nat}

instance : LT (Bytes n) where
  lt a b := a.toList < b.toList

instance : LE (Bytes n) where
  le a b := a.toList ≤ b.toList

instance (a b : Bytes n) : Decidable (a < b) :=
  inferInstanceAs (Decidable (a.toList < b.toList))

def zero : Bytes n :=
  ⟨List.replicate n 0, List.length_replicate⟩

def unmark : List Char → Option (List Char)
  | '0' :: 'x' :: digits => some digits
  | '0' :: 'X' :: digits => some digits
  | _ => none

def ofHex (n : Nat) (digits : List Char) : Except Hex.Fault (Bytes n) :=
  match h : Hex.readExactly n digits with
  | .ok bytes => .ok ⟨bytes, Hex.length_of_readExactly h⟩
  | .error fault => .error fault

def read (n : Nat) (what raw : String) : Except KeyFault (Bytes n) :=
  match unmark raw.toList with
  | none => .error (.unmarked what raw)
  | some digits => (ofHex n digits).mapError (.badHex what raw)

def write (b : Bytes n) : List Char :=
  '0' :: 'x' :: Hex.write b.toList

def toString (b : Bytes n) : String :=
  String.ofList b.write

instance : Std.IsLinearOrder (Bytes n) where
  le_refl a := Std.le_refl a.toList
  le_trans _ _ _ hab hbc := List.le_trans hab hbc
  le_antisymm _ _ hab hba := Bytes.ext (List.le_antisymm hab hba)
  le_total a b := List.le_total a.toList b.toList

instance : Std.LawfulOrderLT (Bytes n) where
  lt_iff a b := Std.LawfulOrderLT.lt_iff a.toList b.toList

theorem ofHex_write (b : Bytes n) : ofHex n (Hex.write b.toList) = .ok b := by
  have hread := Hex.readExactly_write b.length_toList
  unfold ofHex
  split
  · next bytes h =>
    rw [hread] at h
    cases h
    rfl
  · next fault h =>
    rw [hread] at h
    contradiction

theorem unmark_write (b : Bytes n) : unmark b.write = some (Hex.write b.toList) := rfl

theorem read_toString (what : String) (b : Bytes n) : read n what b.toString = .ok b := by
  unfold read toString
  rw [String.toList_ofList, unmark_write]
  dsimp only
  rw [ofHex_write]
  rfl

theorem separator_not_mem_write (b : Bytes n) : ':' ∉ b.write := by
  have hdigit : ∀ d, d < 16 → ':' ≠ Nat.digitChar d := by decide
  intro h
  rw [write, List.mem_cons, List.mem_cons] at h
  rcases h with h | h | h
  · exact absurd h (by decide)
  · exact absurd h (by decide)
  · obtain ⟨byte, _, hb⟩ := List.mem_flatMap.1 h
    rw [Hex.writeByte, List.mem_cons, List.mem_singleton] at hb
    rcases hb with hb | hb
    · exact hdigit _ (Hex.high_lt byte) hb
    · exact hdigit _ (Hex.low_lt byte) hb

end Bytes

@[ext]
structure TxHash where
  bytes : Bytes 32
deriving DecidableEq

structure Address where
  bytes : Bytes 20
deriving DecidableEq

namespace TxHash

instance : LT TxHash where
  lt a b := a.bytes < b.bytes

instance : LE TxHash where
  le a b := a.bytes ≤ b.bytes

instance : Std.IsLinearOrder TxHash where
  le_refl a := Std.le_refl a.bytes
  le_trans _ _ _ hab hbc := Std.le_trans (α := Bytes 32) hab hbc
  le_antisymm _ _ hab hba := TxHash.ext (Std.le_antisymm hab hba)
  le_total _ _ := Std.le_total (α := Bytes 32)

instance : Std.LawfulOrderLT TxHash where
  lt_iff a b := Std.LawfulOrderLT.lt_iff a.bytes b.bytes

instance (a b : TxHash) : Decidable (a < b) :=
  inferInstanceAs (Decidable (a.bytes < b.bytes))

def toString (h : TxHash) : String :=
  h.bytes.toString

def ofString (raw : String) : Except KeyFault TxHash :=
  (Bytes.read 32 "transaction hash" raw).map mk

def ofJson (j : Json) : Except Misfit TxHash := do
  (ofString (← j.readText)).mapError KeyFault.misfit

def toJson (h : TxHash) : Json :=
  .text h.toString

theorem ofString_toString (h : TxHash) : ofString h.toString = .ok h := by
  rw [ofString, toString, Bytes.read_toString, Except.map]

@[simp]
theorem ofJson_toJson (h : TxHash) : ofJson h.toJson = .ok h := by
  unfold ofJson toJson
  rw [Json.bind_readText, ofString_toString]
  rfl

end TxHash

namespace Address

def toString (a : Address) : String :=
  a.bytes.toString

def ofString (raw : String) : Except KeyFault Address :=
  (Bytes.read 20 "address" raw).map mk

def ofJson (j : Json) : Except Misfit Address := do
  (ofString (← j.readText)).mapError KeyFault.misfit

def toJson (a : Address) : Json :=
  .text a.toString

theorem ofString_toString (a : Address) : ofString a.toString = .ok a := by
  rw [ofString, toString, Bytes.read_toString, Except.map]

@[simp]
theorem ofJson_toJson (a : Address) : ofJson a.toJson = .ok a := by
  unfold ofJson toJson
  rw [Json.bind_readText, ofString_toString]
  rfl

end Address

end ChainIndex
