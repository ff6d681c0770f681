import ChainIndex.Text.Percent
import ChainIndex.Text.Split

/-!
This module contains the reading of form-encoded queries: names and values joined by equals signs, between
ampersands, in which a plus sign stands for a space and any byte may be escaped.
-/

namespace ChainIndex

namespace Query

def plusToSpace (c : Char) : Char :=
  if c = '+' then ' ' else c

def decode (cs : List Char) : String :=
  Utf8.repair (Percent.decode (Utf8.bytes (String.ofList (cs.map plusToSpace))))

def readPair (cs : List Char) : String × String :=
  match Split.first '=' cs with
  | some (name, value) => (decode name, decode value)
  | none => (decode cs, "")

def read (query : List Char) : List (String × String) :=
  ((Split.all '&' query).filter fun part => !part.isEmpty).map readPair

def value? (name : String) (pairs : List (String × String)) : Option (Option String) :=
  match pairs.filter fun pair => pair.1 == name with
  | [] => some none
  | [(_, value)] => some (some value)
  | _ => none

end Query

end ChainIndex
