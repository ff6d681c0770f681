/-!
This module contains the reading of bytes as UTF-8 in two manners: strictly, where any ill-formed byte
refuses the whole text, and with repair, where each ill-formed piece becomes one replacement character.
-/

namespace ChainIndex

namespace Utf8

def bytes (s : String) : List UInt8 :=
  s.toUTF8.data.toList

def read? (bytes : List UInt8) : Option String :=
  String.fromUTF8? ⟨bytes.toArray⟩

/--
A character that has begun: how many bytes it still lacks, the code point as far as it is known, and
the least and greatest byte that may come next.
-/
structure Pending where
  lacking : Nat
  code : Nat
  least : UInt8
  greatest : UInt8

def replacement : Char :=
  Char.ofNat 0xfffd

def start (b : UInt8) : List Char × Option Pending :=
  if b < 0x80 then ([Char.ofNat b.toNat], none)
  else if b < 0xc2 then ([replacement], none)
  else if b < 0xe0 then ([], some ⟨1, b.toNat - 0xc0, 0x80, 0xbf⟩)
  else if b = 0xe0 then ([], some ⟨2, 0, 0xa0, 0xbf⟩)
  else if b = 0xed then ([], some ⟨2, 0xd, 0x80, 0x9f⟩)
  else if b < 0xf0 then ([], some ⟨2, b.toNat - 0xe0, 0x80, 0xbf⟩)
  else if b = 0xf0 then ([], some ⟨3, 0, 0x90, 0xbf⟩)
  else if b < 0xf4 then ([], some ⟨3, b.toNat - 0xf0, 0x80, 0xbf⟩)
  else if b = 0xf4 then ([], some ⟨3, 4, 0x80, 0x8f⟩)
  else ([replacement], none)

/--
Takes a byte while a character is pending. A byte that cannot continue it ends the ill-formed piece and
begins a character of its own.
-/
def step (p : Pending) (b : UInt8) : List Char × Option Pending :=
  if p.least ≤ b && b ≤ p.greatest then
    let code := p.code * 64 + (b.toNat - 0x80)
    if p.lacking ≤ 1 then ([Char.ofNat code], none)
    else ([], some ⟨p.lacking - 1, code, 0x80, 0xbf⟩)
  else
    let (cs, next) := start b
    (replacement :: cs, next)

def repairFrom : Option Pending → List UInt8 → List Char
  | none, [] => []
  | some _, [] => [replacement]
  | none, b :: rest =>
    let (cs, next) := start b
    cs ++ repairFrom next rest
  | some p, b :: rest =>
    let (cs, next) := step p b
    cs ++ repairFrom next rest

def repair (bytes : List UInt8) : String :=
  String.ofList (repairFrom none bytes)

theorem read?_bytes (s : String) : read? (bytes s) = some s := by
  have h : (⟨(bytes s).toArray⟩ : ByteArray) = s.toUTF8 := by
    simp [bytes]
  rw [read?, h]
  exact dif_pos s.isValidUTF8

end Utf8

end ChainIndex
