import ChainIndex.Cursor
import ChainIndex.Filter.Text

/-!
This module contains the pages that listings are answered with. The record with the highest ordinal is on
top of its page, whichever way the page was read.
-/

namespace ChainIndex

/--
A part of a listing, with the ordinals of its first and last record. The flags say whether nothing of the
listing lies above the page, and nothing below.
-/
structure Page (ρ : Type) where
  records : List ρ
  total : Nat
  first : Option Ordinal
  last : Option Ordinal
  isStart : Bool
  isEnd : Bool
  filter : Filter
deriving DecidableEq

namespace Page

variable {ρ κ : Type} [Record ρ κ]

def ofRecords (records : List ρ) (total : Nat) (filter : Filter) : Page ρ where
  records := records
  total := total
  first := records.head?.map Record.ordinal
  last := records.getLast?.map Record.ordinal
  isStart := false
  isEnd := false
  filter := filter

def reverse (p : Page ρ) : Page ρ :=
  { p with records := p.records.reverse, first := p.last, last := p.first }

def size (p : Page ρ) : Nat :=
  p.records.length

def isEmpty (p : Page ρ) : Bool :=
  p.records.isEmpty

def firstCursor? (p : Page ρ) : Option (Cursor κ) :=
  p.records.head?.map Cursor.ofRecord

def lastCursor? (p : Page ρ) : Option (Cursor κ) :=
  p.records.getLast?.map Cursor.ofRecord

theorem reverse_ofRecords (records : List ρ) (total : Nat) (filter : Filter) :
    (ofRecords records total filter).reverse = ofRecords records.reverse total filter := by
  simp [reverse, ofRecords]

def bounds (p : Page ρ) : List (String × Json) :=
  [("total", .ofNat p.total),
   ("first", .ofOption Ordinal.toJson p.first),
   ("last", .ofOption Ordinal.toJson p.last),
   ("is_start", .bool p.isStart),
   ("is_end", .bool p.isEnd),
   ("filter", p.filter.toJson)]

def toJson (p : Page ρ) : Json :=
  .object (("collection", .array (p.records.map Record.toJson)) :: p.bounds)

def body [RecordKey κ] (p : Page ρ) : Json :=
  .object (("data", .array (p.records.map Record.toJson)) :: p.bounds ++ [
    ("first_cursor", .ofOption (fun c => .text c.encode) p.firstCursor?),
    ("last_cursor", .ofOption (fun c => .text c.encode) p.lastCursor?)])

end Page

end ChainIndex
