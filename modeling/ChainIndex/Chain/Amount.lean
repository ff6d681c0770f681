import ChainIndex.Json.Fields

/-!
This module contains token amounts of 128 bits, in the smallest unit of their token. In JSON an amount is
a decimal string, so that no reader rounds it.
-/

namespace ChainIndex

def Amount.bound : Nat := Nat.pow 2 128

@[ext]
structure Amount where
  toNat : Nat
  toNat_lt : toNat < Amount.bound
deriving DecidableEq

namespace Amount

def max : Nat := bound - 1

def zero : Amount :=
  ⟨0, by decide⟩

def saturate (n : Nat) : Amount :=
  ⟨min n max, Nat.lt_of_le_of_lt (Nat.min_le_right n max) (by decide)⟩

instance : Add Amount where
  add a b := saturate (a.toNat + b.toNat)

def isZero (a : Amount) : Bool :=
  a.toNat == 0

/--
Drops the decimal places of a token with `decimals` places that lie beyond `precision`. A divisor that is
no amount itself leaves nothing.
-/
def truncate (a : Amount) (decimals precision : UInt8) : Amount :=
  let divisor := Nat.pow 10 (decimals.toNat - precision.toNat)
  if divisor ≤ max then ⟨a.toNat / divisor, Nat.lt_of_le_of_lt (Nat.div_le_self _ _) a.toNat_lt⟩
  else zero

def toString (a : Amount) : String :=
  String.ofList (Numeral.write a.toNat)

def ofString (raw : String) : Except Numeral.Fault Amount :=
  (Numeral.readNat max raw.toList).map saturate

def ofJson (j : Json) : Except Misfit Amount := do
  let raw ← j.readText
  (ofString raw).mapError fun fault => .refused s!"amount `{raw}`: {fault.message}"

def toJson (a : Amount) : Json :=
  .text a.toString

theorem le_max (a : Amount) : a.toNat ≤ max :=
  Nat.le_sub_one_of_lt a.toNat_lt

@[simp]
theorem toNat_add (a b : Amount) : (a + b).toNat = min (a.toNat + b.toNat) max := rfl

theorem saturate_toNat (a : Amount) : saturate a.toNat = a := by
  apply Amount.ext
  exact Nat.min_eq_left a.le_max

theorem ofString_toString (a : Amount) : ofString a.toString = .ok a := by
  unfold ofString toString
  rw [String.toList_ofList]
  rw [Numeral.readNat_write a.le_max]
  rw [Except.map, saturate_toNat]

@[simp]
theorem ofJson_toJson (a : Amount) : ofJson a.toJson = .ok a := by
  unfold ofJson toJson
  rw [Json.bind_readText, ofString_toString]
  rfl

end Amount

end ChainIndex
