import ChainIndex.Error
import ChainIndex.Record.Basic
import ChainIndex.Text.Utf8

/-!
This module contains cursors, the tokens that name the record which a page of a listing ended on. A token
is the name of the record's kind, a colon, and the bytes of the key's text as hexadecimal digits.
-/

namespace ChainIndex

inductive CursorFault where
  | malformed (token : String)
  | otherKind (named : String) (listed : RecordKind)
  | badPayload (fault : Hex.Fault)
  | notText
  | badKey (fault : KeyFault)
deriving DecidableEq

namespace CursorFault

def message : CursorFault → String
  | malformed token => s!"malformed cursor `{token}`"
  | otherKind named listed => s!"cursor for `{named}` used on a `{listed.name}` listing"
  | badPayload fault => s!"cursor payload: {fault.message}"
  | notText => "cursor payload is not text"
  | badKey fault => s!"cursor key: invalid key: {fault.message}"

def toError (fault : CursorFault) : IndexError :=
  .invalidCursor fault.message

end CursorFault

structure Cursor (κ : Type) where
  kind : RecordKind
  key : κ
deriving DecidableEq

namespace Cursor

variable {ρ κ : Type} [RecordKey κ]

def ofRecord [Record ρ κ] (r : ρ) : Cursor κ :=
  ⟨Record.kind ρ, Record.key r⟩

def encode (cursor : Cursor κ) : String :=
  String.ofList
    (cursor.kind.name.toList ++ ':' :: Hex.write (Utf8.bytes (RecordKey.encode cursor.key)))

def decode (kind : RecordKind) (token : String) : Except CursorFault (Cursor κ) :=
  match Split.first ':' token.toList with
  | none => .error (.malformed token)
  | some (named, payload) =>
    if String.ofList named = kind.name then do
      let bytes ← (Hex.read payload).mapError .badPayload
      let raw ← (Utf8.read? bytes).elim (.error .notText) .ok
      let key ← (RecordKey.decode raw).mapError .badKey
      return ⟨kind, key⟩
    else .error (.otherKind (String.ofList named) kind)

theorem decode_encode (cursor : Cursor κ) : decode cursor.kind cursor.encode = .ok cursor := by
  have hbytes : ((Hex.read (Hex.write (Utf8.bytes (RecordKey.encode cursor.key)))).mapError
      CursorFault.badPayload) = .ok (Utf8.bytes (RecordKey.encode cursor.key)) := by
    rw [Hex.read_write]
    rfl
  have hkey : ((RecordKey.decode (RecordKey.encode cursor.key)).mapError CursorFault.badKey) =
      .ok cursor.key := by
    rw [RecordKey.decode_encode]
    rfl
  unfold decode encode
  rw [String.toList_ofList]
  rw [Split.first_append cursor.kind.separator_not_mem_name]
  dsimp only
  rw [String.ofList_toList, if_pos rfl]
  rw [hbytes]
  dsimp only [bind, Except.bind]
  rw [Utf8.read?_bytes, Option.elim_some]
  dsimp only
  rw [hkey]
  rfl

end Cursor

end ChainIndex
