import ChainIndex.Text.Numeral

/-!
This module contains JSON values. Numbers are kept by what they can be used for: only integers of 64 bits
have a value, all other literals are passed on as they stand.
-/

namespace ChainIndex

inductive Number where
  | unsigned (value : UInt64)
  | negative (value : Int64)
  | inexact (literal : String)
deriving DecidableEq

/--
A JSON value. Objects keep their fields in the order of the text, repeated ones included. A string, or an
object with a name, that holds half of a surrogate pair is `broken`: it can be passed over but not read.
-/
inductive Json where
  | null
  | bool (value : Bool)
  | number (value : Number)
  | text (value : String)
  | broken
  | array (items : List Json)
  | object (fields : List (String × Json))

namespace Json

def maxUnsigned : Nat := UInt64.size - 1

/--
A count, shown as the largest unsigned integer when it exceeds that.
-/
def ofNat (n : Nat) : Json :=
  .number (.unsigned (UInt64.ofNat (min n maxUnsigned)))

def ofInt (n : Int) : Json :=
  if 0 ≤ n then ofNat n.toNat else .number (.negative (Int64.ofInt n))

def ofOption (f : α → Json) : Option α → Json
  | none => .null
  | some a => f a

def field? (name : String) : Json → Option Json
  | .object fields => fields.lookup name
  | _ => none

def insertField (name : String) (value : Json) : List (String × Json) → List (String × Json)
  | [] => [(name, value)]
  | (name', value') :: rest =>
    if name < name' then (name, value) :: (name', value') :: rest
    else if name = name' then (name', value') :: rest
    else (name', value') :: insertField name value rest

mutual

/--
The value with the fields of every object in order of name, where the last of several fields of one
name is the one that counts.
-/
def normalize : Json → Json
  | .array items => .array (normalizeItems items)
  | .object fields => .object (normalizeFields fields)
  | other => other

def normalizeItems : List Json → List Json
  | [] => []
  | item :: rest => normalize item :: normalizeItems rest

def normalizeFields : List (String × Json) → List (String × Json)
  | [] => []
  | (name, value) :: rest => insertField name (normalize value) (normalizeFields rest)

end

end Json

end ChainIndex
