import ChainIndex.Text.Quoted

/-!
This module contains the hexadecimal form of byte strings: two digits a byte, written in lower case and
read in either case, with the faults of reading and the proof that written bytes read back.
-/

namespace ChainIndex

namespace Hex

inductive Fault where
  | oddLength
  | wrongLength
  | badDigit (byte : UInt8) (position : Nat)
deriving DecidableEq

def Fault.message : Fault → String
  | .oddLength => "Odd number of digits"
  | .wrongLength => "Invalid string length"
  | .badDigit byte position =>
    s!"Invalid character {Quoted.char (Char.ofNat byte.toNat)} at position {position}"

def digit? (c : Char) : Option Nat :=
  if '0' ≤ c ∧ c ≤ '9' then some (c.toNat - 48)
  else if 'a' ≤ c ∧ c ≤ 'f' then some (c.toNat - 87)
  else if 'A' ≤ c ∧ c ≤ 'F' then some (c.toNat - 55)
  else none

def readDigit (position : Nat) (c : Char) : Except Fault Nat :=
  match digit? c with
  | some d => .ok d
  | none => .error (.badDigit ((String.utf8EncodeChar c).headD 0) position)

/--
Reads two digits a byte. All digits before a fault are one byte wide, so counting characters gives
the position in bytes.
-/
def readPairs (position : Nat) : List Char → Except Fault (List UInt8)
  | [] => .ok []
  | [c] => (readDigit position c).bind fun _ => .error .oddLength
  | a :: b :: rest => do
    let high ← readDigit position a
    let low ← readDigit (position + 1) b
    let bytes ← readPairs (position + 2) rest
    return UInt8.ofNat (high * 16 + low) :: bytes

def width : List Char → Nat
  | [] => 0
  | c :: rest => c.utf8Size + width rest

def read (cs : List Char) : Except Fault (List UInt8) :=
  if width cs % 2 = 1 then .error .oddLength else readPairs 0 cs

def readExactly (n : Nat) (cs : List Char) : Except Fault (List UInt8) :=
  if width cs % 2 = 1 then .error .oddLength
  else if width cs ≠ 2 * n then .error .wrongLength
  else readPairs 0 cs

def writeByte (b : UInt8) : List Char :=
  [Nat.digitChar (b.toNat / 16), Nat.digitChar (b.toNat % 16)]

def write (bytes : List UInt8) : List Char :=
  bytes.flatMap writeByte

theorem digit?_digitChar {d : Nat} (h : d < 16) : digit? d.digitChar = some d := by
  revert d
  decide

theorem utf8Size_digitChar {d : Nat} (h : d < 16) : d.digitChar.utf8Size = 1 := by
  revert d
  decide

theorem high_lt (b : UInt8) : b.toNat / 16 < 16 := by
  have := b.toNat_lt
  omega

theorem low_lt (b : UInt8) : b.toNat % 16 < 16 := by
  omega

theorem write_cons (b : UInt8) (rest : List UInt8) :
    write (b :: rest) = (b.toNat / 16).digitChar :: (b.toNat % 16).digitChar :: write rest := rfl

theorem width_write (bytes : List UInt8) : width (write bytes) = 2 * bytes.length := by
  induction bytes with
  | nil => rfl
  | cons b rest ih =>
    rw [write_cons, width, width]
    rw [utf8Size_digitChar (high_lt b)]
    rw [utf8Size_digitChar (low_lt b)]
    rw [ih, List.length_cons]
    omega

theorem readDigit_digitChar (position : Nat) {d : Nat} (h : d < 16) :
    readDigit position d.digitChar = .ok d := by
  unfold readDigit
  rw [digit?_digitChar h]

theorem readPairs_write (bytes : List UInt8) (position : Nat) :
    readPairs position (write bytes) = .ok bytes := by
  induction bytes generalizing position with
  | nil => rfl
  | cons b rest ih =>
    have hb : b.toNat / 16 * 16 + b.toNat % 16 = b.toNat := by omega
    rw [write_cons, readPairs]
    rw [readDigit_digitChar position (high_lt b)]
    rw [readDigit_digitChar (position + 1) (low_lt b)]
    rw [ih]
    dsimp only [bind, Except.bind, pure, Except.pure]
    rw [hb, UInt8.ofNat_toNat]

theorem read_write (bytes : List UInt8) : read (write bytes) = .ok bytes := by
  have heven : ¬width (write bytes) % 2 = 1 := by
    rw [width_write]
    omega
  rw [read, if_neg heven, readPairs_write]

theorem readExactly_write {n : Nat} {bytes : List UInt8} (h : bytes.length = n) :
    readExactly n (write bytes) = .ok bytes := by
  have hwidth : width (write bytes) = 2 * n := by rw [width_write, h]
  have heven : ¬width (write bytes) % 2 = 1 := by omega
  have hlength : ¬width (write bytes) ≠ 2 * n := by omega
  rw [readExactly, if_neg heven, if_neg hlength, readPairs_write]

theorem utf8Size_of_digit? {c : Char} {d : Nat} (h : digit? c = some d) : c.utf8Size = 1 := by
  have hle : c.val ≤ 0x7f := by
    unfold digit? at h
    split at h
    · next hc => exact UInt32.le_trans hc.2 (by decide)
    · split at h
      · next hc => exact UInt32.le_trans hc.2 (by decide)
      · split at h
        · next hc => exact UInt32.le_trans hc.2 (by decide)
        · contradiction
  exact Char.utf8Size_eq_one_iff.2 hle

theorem readDigit_eq_ok {position : Nat} {c : Char} {d : Nat} (h : readDigit position c = .ok d) :
    digit? c = some d := by
  unfold readDigit at h
  split at h
  · next hd =>
    cases h
    exact hd
  · contradiction

theorem width_of_readPairs {position : Nat} {cs : List Char} {bytes : List UInt8}
    (h : readPairs position cs = .ok bytes) : width cs = 2 * bytes.length := by
  fun_induction readPairs position cs generalizing bytes with
  | case1 =>
    cases h
    rfl
  | case2 position c =>
    unfold Except.bind at h
    split at h <;> contradiction
  | case3 position a b rest ih =>
    dsimp only [bind, Except.bind] at h
    split at h
    · contradiction
    · next high ha =>
      split at h
      · contradiction
      · next low hb =>
        split at h
        · contradiction
        · next tail hrest =>
          cases h
          rw [width, width]
          rw [utf8Size_of_digit? (readDigit_eq_ok ha)]
          rw [utf8Size_of_digit? (readDigit_eq_ok hb)]
          rw [ih hrest, List.length_cons]
          omega

theorem length_of_readExactly {n : Nat} {cs : List Char} {bytes : List UInt8}
    (h : readExactly n cs = .ok bytes) : bytes.length = n := by
  unfold readExactly at h
  split at h
  · contradiction
  · split at h
    · contradiction
    · next hlength =>
      have hwidth := width_of_readPairs h
      omega

end Hex

end ChainIndex
