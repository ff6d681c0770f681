import ChainIndex.Json.Basic

/-!
This module contains the text of a JSON value: no blanks, fields in the order they stand in, and the
shortest escape for each character that needs one.
-/

namespace ChainIndex

namespace Json

def escapeChar (c : Char) : List Char :=
  if c = '"' then ['\\', '"']
  else if c = '\\' then ['\\', '\\']
  else if c = '\n' then ['\\', 'n']
  else if c = '\r' then ['\\', 'r']
  else if c = '\t' then ['\\', 't']
  else if c = '\x08' then ['\\', 'b']
  else if c = '\x0c' then ['\\', 'f']
  else if c.toNat < 0x20 then
    ['\\', 'u', '0', '0', Nat.digitChar (c.toNat / 16), Nat.digitChar (c.toNat % 16)]
  else [c]

def quote (s : String) : List Char :=
  '"' :: s.toList.flatMap escapeChar ++ ['"']

def Number.write : Number → List Char
  | .unsigned n => Numeral.write n.toNat
  | .negative n => '-' :: Numeral.write n.toInt.natAbs
  | .inexact literal => literal.toList

mutual

def write : Json → List Char
  | .null => "null".toList
  | .bool true => "true".toList
  | .bool false => "false".toList
  | .number n => Number.write n
  | .text s => quote s
  | .broken => quote "\ufffd"
  | .array items => '[' :: writeItems items
  | .object fields => '\x7b' :: writeFields fields

def writeItems : List Json → List Char
  | [] => [']']
  | [item] => write item ++ [']']
  | item :: next :: rest => write item ++ ',' :: writeItems (next :: rest)

def writeFields : List (String × Json) → List Char
  | [] => ['\x7d']
  | [(name, value)] => quote name ++ ':' :: write value ++ ['\x7d']
  | (name, value) :: next :: rest => quote name ++ ':' :: write value ++ ',' :: writeFields (next :: rest)

end

def render (j : Json) : String :=
  String.ofList (write j)

end Json

end ChainIndex
