import ChainIndex.Json.Fields
import ChainIndex.Time.Rfc3339

/-!
This module contains the JSON form of a point in time, which is its text.
-/

namespace ChainIndex

namespace Timestamp

def ofJson : Json → Except Misfit Timestamp
  | .text s =>
    match ofString? s with
    | some t => .ok t
    | none => .error .unreadable
  | _ => .error .unreadable

def toJson (t : Timestamp) : Json :=
  .text t.toString

@[simp]
theorem ofJson_toJson (t : Timestamp) : ofJson t.toJson = .ok t := by
  simp only [ofJson, toJson, ofString?_toString]

end Timestamp

end ChainIndex
