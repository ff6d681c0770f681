import ChainIndex.Text.Hex
import ChainIndex.Text.Numeral
import ChainIndex.Text.Split

/-!
This module contains socket addresses, that is an address of version 4 or 6 and a port, and their text.
An address of version 6 is written with its longest run of zero groups left out.
-/

namespace ChainIndex

inductive SocketAddress where
  | v4 (octets : Vector UInt8 4) (port : UInt16)
  | v6 (groups : Vector UInt16 8) (scope : UInt32) (port : UInt16)
deriving DecidableEq

namespace SocketAddress

def exactly (n : Nat) (xs : List α) : Option (Vector α n) :=
  if h : xs.length = n then some ⟨xs.toArray, h⟩ else none

def readOctet (cs : List Char) : Option UInt8 :=
  if cs.length ≤ 3 ∧ cs.all Char.isDigit ∧ (cs.head? = some '0' → cs.length = 1) then
    match Numeral.readNat 255 cs with
    | .ok n => some (UInt8.ofNat n)
    | .error _ => none
  else none

def readV4 (cs : List Char) : Option (Vector UInt8 4) :=
  ((Split.all '.' cs).mapM readOctet).bind (exactly 4)

def readGroup (cs : List Char) : Option UInt16 :=
  if 1 ≤ cs.length ∧ cs.length ≤ 4 then
    (cs.mapM Hex.digit?).map fun ds => UInt16.ofNat (ds.foldl (fun acc d => acc * 16 + d) 0)
  else none

def joinOctets (high low : UInt8) : UInt16 :=
  high.toUInt16 * 256 + low.toUInt16

def readGroups : List (List Char) → Option (List UInt16)
  | [] => some []
  | [part] =>
    match readGroup part with
    | some group => some [group]
    | none =>
      match readV4 part with
      | some octets => some [joinOctets octets[0] octets[1], joinOctets octets[2] octets[3]]
      | none => none
  | part :: parts => do
    let group ← readGroup part
    let groups ← readGroups parts
    return group :: groups

def splitGap : List Char → Option (List Char × List Char)
  | [] => none
  | [_] => none
  | a :: b :: rest =>
    if a = ':' ∧ b = ':' then some ([], rest)
    else (splitGap (b :: rest)).map fun (before, after) => (a :: before, after)

def readSide (cs : List Char) : Option (List UInt16) :=
  if cs = [] then some [] else readGroups (Split.all ':' cs)

/--
Eight groups, or fewer around a gap that stands for at least one group of zeros. An address of version 4
may only stand at the very end.
-/
def readV6 (cs : List Char) : Option (Vector UInt16 8) :=
  match splitGap cs with
  | none => (readSide cs).bind (exactly 8)
  | some (before, after) => do
    let head ← if before.contains '.' then none else readSide before
    let tail ← readSide after
    let n := head.length + tail.length
    if n ≤ 7 then exactly 8 (head ++ List.replicate (8 - n) 0 ++ tail) else none

def readPlain (limit : Nat) (cs : List Char) : Option Nat :=
  if cs.all Char.isDigit then
    match Numeral.readNat limit cs with
    | .ok n => some n
    | .error _ => none
  else none

def read? (cs : List Char) : Option SocketAddress :=
  match cs with
  | '[' :: rest => do
    let (inner, after) ← Split.first ']' rest
    let (address, scope) ← match Split.first '%' inner with
      | none => some (inner, 0)
      | some (address, scope) => (readPlain (UInt32.size - 1) scope).map fun n => (address, n)
    let groups ← readV6 address
    match after with
    | ':' :: port => do
      let port ← readPlain (UInt16.size - 1) port
      return .v6 groups (UInt32.ofNat scope) (UInt16.ofNat port)
    | _ => none
  | _ => do
    let (address, port) ← Split.first ':' cs
    let octets ← readV4 address
    let port ← readPlain (UInt16.size - 1) port
    return .v4 octets (UInt16.ofNat port)

def ofString? (s : String) : Option SocketAddress :=
  read? s.toList

def writeV4 (octets : List UInt8) : String :=
  ".".intercalate (octets.map fun b => toString b.toNat)

def writeGroups (groups : List UInt16) : String :=
  ":".intercalate (groups.map fun g => String.ofList (Nat.toDigits 16 g.toNat))

def zeroRun (groups : List UInt16) : Nat :=
  (groups.takeWhile (· == 0)).length

def longestRun (start : Nat) : List UInt16 → Nat × Nat
  | [] => (0, 0)
  | group :: rest =>
    let here := zeroRun (group :: rest)
    let later := longestRun (start + 1) rest
    if later.2 ≤ here then (start, here) else later

/--
A version 4 address inside version 6 keeps its own form; else the longest run of at least two zero
groups is left out.
-/
def writeV6 (groups : List UInt16) : String :=
  match groups with
  | [0, 0, 0, 0, 0, 0xffff, a, b] =>
    "::ffff:" ++ writeV4 [(a / 256).toUInt8, (a % 256).toUInt8, (b / 256).toUInt8, (b % 256).toUInt8]
  | _ =>
    let (start, length) := longestRun 0 groups
    if 1 < length then
      writeGroups (groups.take start) ++ "::" ++ writeGroups (groups.drop (start + length))
    else writeGroups groups

def toString : SocketAddress → String
  | .v4 octets port => writeV4 octets.toList ++ ":" ++ Nat.repr port.toNat
  | .v6 groups scope port =>
    let zone := if scope = 0 then "" else "%" ++ Nat.repr scope.toNat
    "[" ++ writeV6 groups.toList ++ zone ++ "]:" ++ Nat.repr port.toNat

end SocketAddress

end ChainIndex
