/-!
This module contains the blank characters of Unicode, that is the characters with the property
White_Space, and the cutting away of leading blanks.
-/

namespace ChainIndex

namespace Blank

/--
First and last code point of every range of blanks, in ascending order.
-/
def ranges : List (Nat × Nat) :=
  [(0x09, 0x0d), (0x20, 0x20), (0x85, 0x85), (0xa0, 0xa0), (0x1680, 0x1680), (0x2000, 0x200a),
   (0x2028, 0x2029), (0x202f, 0x202f), (0x205f, 0x205f), (0x3000, 0x3000)]

def isBlank (c : Char) : Bool :=
  ranges.any fun (first, last) => first ≤ c.toNat && c.toNat ≤ last

def skip (cs : List Char) : List Char :=
  cs.dropWhile isBlank

end Blank

end ChainIndex
