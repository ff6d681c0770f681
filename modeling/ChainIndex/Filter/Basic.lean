import ChainIndex.Json.Basic

/-!
This module contains the filters of a listing. A filter is a conjunction of conditions on the fields that
a record is serialized with; a field that is absent or of another type than the condition's value is not
comparable with it and meets no condition.
-/

namespace ChainIndex

inductive Comparison where
  | eq
  | ne
  | gt
  | gte
  | lt
  | lte
deriving DecidableEq

namespace Comparison

def accepts : Comparison → Ordering → Bool
  | eq, o => o == .eq
  | ne, o => o != .eq
  | gt, o => o == .gt
  | gte, o => o != .lt
  | lt, o => o == .lt
  | lte, o => o != .gt

def sql : Comparison → String
  | eq => "="
  | ne => "<>"
  | gt => ">"
  | gte => ">="
  | lt => "<"
  | lte => "<="

end Comparison

/--
What a field is compared with. Hashes, addresses and amounts are texts.
-/
inductive FilterValue where
  | bool (value : Bool)
  | number (value : UInt64)
  | text (value : String)
deriving DecidableEq

def FilterValue.compare? : Json → FilterValue → Option Ordering
  | .bool a, .bool b => some (compareOfLessAndEq a b)
  | .number (.unsigned a), .number b => some (compareOfLessAndEq a b)
  | .text a, .text b => some (compareOfLessAndEq a b)
  | _, _ => none

structure Condition where
  field : String
  comparison : Comparison
  value : FilterValue
deriving DecidableEq

namespace Condition

def isPlainChar (c : Char) : Bool :=
  c.isLower || c.isDigit || c == '_'

/--
Field names are plain identifiers, because a store may have to spell them in a query.
-/
def isPlain (field : String) : Bool :=
  !field.isEmpty && field.toList.all isPlainChar

def accepts (c : Condition) (record : Json) : Bool :=
  match (record.field? c.field).bind (FilterValue.compare? · c.value) with
  | some order => c.comparison.accepts order
  | none => false

end Condition

inductive FilterFault where
  | badField (name : String)
  | notJson
deriving DecidableEq

/--
The wording of the fault. For a text that is not the JSON of a filter, the detail of the JSON library, which
would follow after a colon, is left out.
-/
def FilterFault.message : FilterFault → String
  | .badField name => s!"bad field name `{name}`"
  | .notJson => "filter is not valid JSON"

structure Filter where
  conditions : List Condition
deriving DecidableEq

namespace Filter

def all : Filter :=
  ⟨[]⟩

def isEmpty (f : Filter) : Bool :=
  f.conditions.isEmpty

def accepts (f : Filter) (record : Json) : Bool :=
  f.conditions.all (·.accepts record)

def validate (f : Filter) : Except FilterFault Unit :=
  match f.conditions.find? fun c => !Condition.isPlain c.field with
  | some c => .error (.badField c.field)
  | none => .ok ()

end Filter

end ChainIndex
