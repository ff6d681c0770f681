import ChainIndex.Text.Hex
import ChainIndex.Text.Utf8

/-!
This module contains percent escapes, in which a byte stands as a percent sign and two hexadecimal
digits. A percent sign that no two digits follow stands for itself.
-/

namespace ChainIndex

namespace Percent

def sign : UInt8 := 0x25

def digit? (b : UInt8) : Option Nat :=
  Hex.digit? (Char.ofNat b.toNat)

def decode : List UInt8 → List UInt8
  | [] => []
  | [a] => [a]
  | [a, b] => [a, b]
  | a :: b :: c :: rest =>
    if a = sign then
      match digit? b, digit? c with
      | some high, some low => UInt8.ofNat (high * 16 + low) :: decode rest
      | _, _ => a :: decode (b :: c :: rest)
    else a :: decode (b :: c :: rest)

end Percent

end ChainIndex
