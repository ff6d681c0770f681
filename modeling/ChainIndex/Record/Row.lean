import ChainIndex.Error
import ChainIndex.Record.Basic

/-!
This module contains the rows that records are stored as in a table: the ordinal has a signed column of
its own, which settles the ordinal of the record that a row is read as.
-/

namespace ChainIndex

structure Row where
  kind : RecordKind
  key : String
  ordinal : Int64
  payload : Json

namespace Row

variable {ρ κ : Type} [RecordKey κ] [Record ρ κ]

def ofRecord (r : ρ) : Except OrdinalFault Row := do
  let ordinal ← (Record.ordinal r).toSigned
  return ⟨Record.kind ρ, RecordKey.encode (Record.key r), ordinal, Record.toJson r⟩

/--
The record of a row, under the ordinal of the row whatever the payload says.
-/
def toRecord (ρ : Type) {κ : Type} [Record ρ κ] (row : Row) : Except IndexError ρ := do
  let r : ρ ← (Record.ofJson row.payload).mapError .serialization
  let ordinal ← (Ordinal.ofSigned row.ordinal).mapError OrdinalFault.toError
  return Record.setOrdinal ordinal r

def toJson (row : Row) : Json :=
  .object [
    ("kind", .text row.kind.name),
    ("pk", .text row.key),
    ("ordinal", .ofInt row.ordinal.toInt),
    ("payload", row.payload)]

end Row

end ChainIndex
