import ChainIndex.Filter.Basic
import ChainIndex.Json.Fields
import ChainIndex.Json.Parser
import ChainIndex.Json.Printer
import ChainIndex.Text.Blank

/-!
This module contains the JSON form of filters, and filters given as text.
-/

namespace ChainIndex

namespace Comparison

def named : List (String × Comparison) :=
  [("eq", eq), ("ne", ne), ("gt", gt), ("gte", gte), ("lt", lt), ("lte", lte)]

def name : Comparison → String
  | eq => "eq"
  | ne => "ne"
  | gt => "gt"
  | gte => "gte"
  | lt => "lt"
  | lte => "lte"

def ofJson : Json → Except Misfit Comparison :=
  Json.readEnum named

end Comparison

namespace FilterValue

def ofJson : Json → Except Misfit FilterValue
  | .bool b => .ok (.bool b)
  | .number (.unsigned n) => .ok (.number n)
  | .text s => .ok (.text s)
  | _ => .error .unreadable

def toJson : FilterValue → Json
  | bool b => .bool b
  | number n => .ofUInt64 n
  | text s => .text s

end FilterValue

namespace Condition

def fields : Fields Condition :=
  mk <$> .required "field" Json.readText
    <*> .required "op" Comparison.ofJson
    <*> .required "value" FilterValue.ofJson

def toJson (c : Condition) : Json :=
  .object [("field", .text c.field), ("op", .text c.comparison.name), ("value", c.value.toJson)]

end Condition

namespace Filter

def ofJson (j : Json) : Except Misfit Filter :=
  (j.readItems Condition.fields.read).map mk

def toJson (f : Filter) : Json :=
  .array (f.conditions.map Condition.toJson)

def toText (f : Filter) : String :=
  f.toJson.render

/--
Reads and validates a filter given as text. A text of blanks only, or none at all, is the empty filter.
-/
def ofText (text : Option String) : Except FilterFault Filter :=
  match text with
  | none => .ok all
  | some raw =>
    if Blank.skip raw.toList = [] then .ok all
    else match Json.parse? raw with
      | none => .error .notJson
      | some j =>
        match ofJson j with
        | .error _ => .error .notJson
        | .ok f => f.validate.map fun _ => f

end Filter

end ChainIndex
