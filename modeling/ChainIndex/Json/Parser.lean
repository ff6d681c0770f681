import ChainIndex.Json.Basic
import ChainIndex.Text.Hex

/-!
This module contains the reading of JSON text. Every scanner takes what it needs from the front of the
text and returns the rest.
-/

namespace ChainIndex

namespace Json

def skipSpace : List Char → List Char
  | [] => []
  | c :: rest =>
    if c = ' ' ∨ c = '\n' ∨ c = '\t' ∨ c = '\r' then skipSpace rest else c :: rest

def unit? (a b c d : Char) : Option Nat := do
  let a ← Hex.digit? a
  let b ← Hex.digit? b
  let c ← Hex.digit? c
  let d ← Hex.digit? d
  return ((a * 16 + b) * 16 + c) * 16 + d

def isHighSurrogate (n : Nat) : Bool := 0xd800 ≤ n && n < 0xdc00

def isLowSurrogate (n : Nat) : Bool := 0xdc00 ≤ n && n < 0xe000

def ofSurrogates (high low : Nat) : Char :=
  Char.ofNat (0x10000 + (high - 0xd800) * 0x400 + (low - 0xdc00))

def unescape? (c : Char) : Option Char :=
  if c = '"' ∨ c = '\\' ∨ c = '/' then some c
  else if c = 'b' then some '\x08'
  else if c = 'f' then some '\x0c'
  else if c = 'n' then some '\n'
  else if c = 'r' then some '\r'
  else if c = 't' then some '\t'
  else none

abbrev Scanned := Option (List Char) × List Char

def Scanned.push (c : Char) (s : Scanned) : Scanned :=
  (s.1.map (c :: ·), s.2)

def Scanned.settle (high : Option Nat) (s : Scanned) : Scanned :=
  if high.isSome then (none, s.2) else s

/--
Reads the rest of a string whose opening quote has been read. The high half of a pair is held until the
escape after it is known.
-/
def scanText (high : Option Nat) : List Char → Option Scanned
  | [] => none
  | '"' :: rest => some (Scanned.settle high (some [], rest))
  | '\\' :: 'u' :: a :: b :: c :: d :: rest =>
    match unit? a b c d with
    | none => none
    | some n =>
      if isHighSurrogate n then (scanText (some n) rest).map (Scanned.settle high)
      else if isLowSurrogate n then
        match high with
        | some h => (scanText none rest).map (Scanned.push (ofSurrogates h n))
        | none => (scanText none rest).map (Scanned.settle (some n))
      else (scanText none rest).map (Scanned.settle high ∘ Scanned.push (Char.ofNat n))
  | '\\' :: c :: rest =>
    match unescape? c with
    | none => none
    | some c => (scanText none rest).map (Scanned.settle high ∘ Scanned.push c)
  | c :: rest =>
    if c.toNat < 0x20 then none
    else (scanText none rest).map (Scanned.settle high ∘ Scanned.push c)

def digits (cs : List Char) : List Char × List Char :=
  (cs.takeWhile Char.isDigit, cs.dropWhile Char.isDigit)

def scanFraction : List Char → Option (Bool × List Char)
  | '.' :: rest =>
    match digits rest with
    | ([], _) => none
    | (_, rest) => some (true, rest)
  | cs => some (false, cs)

def dropSign : List Char → List Char
  | '+' :: rest => rest
  | '-' :: rest => rest
  | cs => cs

def scanExponent : List Char → Option (Bool × List Char)
  | [] => some (false, [])
  | c :: rest =>
    if c = 'e' ∨ c = 'E' then
      match digits (dropSign rest) with
      | ([], _) => none
      | (_, rest) => some (true, rest)
    else some (false, c :: rest)

def Number.ofDigits (negative : Bool) (ds : List Char) : Option Number :=
  match negative, Numeral.readInt (UInt64.size / 2) maxUnsigned (if negative then '-' :: ds else ds) with
  | false, .ok n => some (.unsigned (UInt64.ofNat n.toNat))
  -- Minus zero is not an integer.
  | true, .ok n => if n = 0 then none else some (.negative (Int64.ofInt n))
  | _, .error _ => none

def scanNumber (cs : List Char) : Option (Number × List Char) :=
  let negative := cs.head? = some '-'
  let (whole, rest) := digits (if negative then cs.tail else cs)
  if whole = [] ∨ (whole.head? = some '0' ∧ 1 < whole.length) then none
  else do
    let (fraction, rest) ← scanFraction rest
    let (exponent, rest) ← scanExponent rest
    let literal := String.ofList (cs.take (cs.length - rest.length))
    if fraction || exponent then return (.inexact literal, rest)
    else return ((Number.ofDigits negative whole).getD (.inexact literal), rest)

def ofScanned : Option (List Char) → Json
  | some cs => .text (String.ofList cs)
  | none => .broken

mutual

/--
Reads one value. The fuel bounds how many values, items and fields are begun inside one another.
-/
def scanValue : Nat → List Char → Option (Json × List Char)
  | 0, _ => none
  | fuel + 1, cs =>
    match skipSpace cs with
    | 'n' :: 'u' :: 'l' :: 'l' :: rest => some (.null, rest)
    | 't' :: 'r' :: 'u' :: 'e' :: rest => some (.bool true, rest)
    | 'f' :: 'a' :: 'l' :: 's' :: 'e' :: rest => some (.bool false, rest)
    | '"' :: rest => (scanText none rest).map fun (s, rest) => (ofScanned s, rest)
    | '[' :: rest =>
      match skipSpace rest with
      | ']' :: rest => some (.array [], rest)
      | rest => (scanItems fuel rest).map fun (items, rest) => (.array items, rest)
    | '\x7b' :: rest =>
      match skipSpace rest with
      | '\x7d' :: rest => some (.object [], rest)
      | rest => (scanFields fuel rest).map fun (fields, rest) => (fields.elim .broken .object, rest)
    | rest => (scanNumber rest).map fun (n, rest) => (.number n, rest)

def scanItems : Nat → List Char → Option (List Json × List Char)
  | 0, _ => none
  | fuel + 1, cs => do
    let (item, rest) ← scanValue fuel cs
    match skipSpace rest with
    | ']' :: rest => return ([item], rest)
    | ',' :: rest =>
      let (items, rest) ← scanItems fuel rest
      return (item :: items, rest)
    | _ => none

def scanFields : Nat → List Char → Option (Option (List (String × Json)) × List Char)
  | 0, _ => none
  | fuel + 1, cs =>
    match skipSpace cs with
    | '"' :: rest => do
      let (name, rest) ← scanText none rest
      match skipSpace rest with
      | ':' :: rest =>
        let (value, rest) ← scanValue fuel rest
        -- A broken name spoils the whole object.
        let field := name.map fun name => (String.ofList name, value)
        match skipSpace rest with
        | '\x7d' :: rest => return (field.map ([·]), rest)
        | ',' :: rest =>
          let (fields, rest) ← scanFields fuel rest
          return (field.bind fun field => fields.map (field :: ·), rest)
        | _ => none
      | _ => none
    | _ => none

end

/--
Reads a text that holds one value and nothing else but space around it. A value inside another begins
at least one character later, so the length of the text is fuel enough.
-/
def parse? (s : String) : Option Json :=
  match scanValue (2 * s.length + 2) s.toList with
  | some (value, rest) => if skipSpace rest = [] then some value else none
  | none => none

end Json

end ChainIndex
