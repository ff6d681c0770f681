/-!
This module contains the quoted form of a character in an error text: control characters and unusual
blanks are written as escapes, all else stands for itself.
-/

namespace ChainIndex

namespace Quoted

/--
Characters up to U+00FF that have no visible form of their own.
-/
def isHidden (code : Nat) : Bool :=
  code < 0x20 || (0x7f ≤ code && code ≤ 0xa0) || code == 0xad

def escape (c : Char) : List Char :=
  let code := c.toNat
  if code = 0 then ['\\', '0']
  else if c = '\t' then ['\\', 't']
  else if c = '\r' then ['\\', 'r']
  else if c = '\n' then ['\\', 'n']
  else if code = 0x27 || code = 0x5c then ['\\', c]
  else if isHidden code then ['\\', 'u', '\x7b'] ++ Nat.toDigits 16 code ++ ['\x7d']
  else [c]

def char (c : Char) : String :=
  "'" ++ String.ofList (escape c) ++ "'"

end Quoted

end ChainIndex
