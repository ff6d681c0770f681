/-!
This module contains the decimal numerals that keys, amounts and settings are written in: reading
with an upper bound, the faults of reading, and the proof that a printed number reads back.
-/

namespace ChainIndex

namespace Numeral

inductive Fault where
  | empty
  | invalidDigit
  | tooLarge
  | tooSmall
deriving DecidableEq

def Fault.message : Fault → String
  | .empty => "cannot parse integer from empty string"
  | .invalidDigit => "invalid digit found in string"
  | .tooLarge => "number too large to fit in target type"
  | .tooSmall => "number too small to fit in target type"

def digit? (c : Char) : Option Nat :=
  if c.isDigit then some (c.toNat - 48) else none

/--
Reads digits onto `acc` from the left. The bound is tested after every digit, so a text that is both
too large and no number fails by whichever comes first.
-/
def readDigits (limit acc : Nat) : List Char → Except Fault Nat
  | [] => .ok acc
  | c :: rest =>
    match digit? c with
    | none => .error .invalidDigit
    | some d =>
      if acc * 10 + d ≤ limit then readDigits limit (acc * 10 + d) rest else .error .tooLarge

/--
Reads a natural number of at most `limit`. One plus sign and leading zeros are allowed.
-/
def readNat (limit : Nat) : List Char → Except Fault Nat
  | [] => .error .empty
  | ['+'] => .error .invalidDigit
  | '+' :: rest => readDigits limit 0 rest
  | cs => readDigits limit 0 cs

def readInt (below above : Nat) : List Char → Except Fault Int
  | ['-'] => .error .invalidDigit
  | '-' :: rest =>
    match readDigits below 0 rest with
    | .ok n => .ok (-(n : Int))
    | .error .tooLarge => .error .tooSmall
    | .error e => .error e
  | cs => (readNat above cs).map Int.ofNat

def write (n : Nat) : List Char :=
  Nat.toDigits 10 n

theorem isDigit_of_mem_write {n : Nat} {c : Char} (h : c ∈ write n) : c.isDigit = true :=
  Nat.isDigit_of_mem_toDigits (by omega) (by omega) h

theorem digit?_digitChar {d : Nat} (h : d < 10) : digit? d.digitChar = some d := by
  revert d
  decide

theorem readDigits_append (limit acc : Nat) (xs ys : List Char) :
    readDigits limit acc (xs ++ ys) = (readDigits limit acc xs).bind fun n => readDigits limit n ys := by
  induction xs generalizing acc with
  | nil => rfl
  | cons c rest ih =>
    rw [List.cons_append, readDigits, readDigits]
    cases digit? c with
    | none => rfl
    | some d =>
      dsimp only
      split
      · exact ih (acc * 10 + d)
      · rfl

theorem readDigits_write {limit n : Nat} (h : n ≤ limit) : readDigits limit 0 (write n) = .ok n := by
  induction n using Nat.strongRecOn with
  | ind n ih =>
    unfold write
    by_cases hn : n < 10
    · have hvalue : 0 * 10 + n = n := by omega
      rw [Nat.toDigits_of_lt_base hn]
      rw [readDigits, digit?_digitChar hn]
      dsimp only
      rw [hvalue, if_pos h, readDigits]
    · have hquotient : readDigits limit 0 (write (n / 10)) = .ok (n / 10) := by
        apply ih
        · omega
        · omega
      have hdigit : n % 10 < 10 := by omega
      have hvalue : n / 10 * 10 + n % 10 = n := by omega
      rw [Nat.toDigits_of_base_le (by omega) (by omega)]
      rw [readDigits_append]
      unfold write at hquotient
      rw [hquotient]
      dsimp only [Except.bind]
      rw [readDigits, digit?_digitChar hdigit]
      dsimp only
      rw [hvalue, if_pos h, readDigits]

theorem readNat_write {limit n : Nat} (h : n ≤ limit) : readNat limit (write n) = .ok n := by
  have hread := readDigits_write h
  have hplus : '+' ∉ write n := by
    intro hmem
    exact absurd (isDigit_of_mem_write hmem) (by decide)
  unfold readNat
  split
  · next hnil => exact absurd hnil Nat.toDigits_ne_nil
  · next hcons =>
    rw [hcons] at hplus
    exact absurd List.mem_cons_self hplus
  · next hcons =>
    rw [hcons] at hplus
    exact absurd List.mem_cons_self hplus
  · exact hread

end Numeral

end ChainIndex
