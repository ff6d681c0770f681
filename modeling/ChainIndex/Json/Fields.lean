import ChainIndex.Json.Basic

/-!
This module contains the reading of structures from JSON. A structure states its fields once, in order of
declaration, and that statement fixes both what is read and which fault is reported first: the first
field of the object whose value does not fit, else the first declared field that is missing.
-/

namespace ChainIndex

/--
Why a JSON value is not the structure asked for. Only values that are texts with a grammar of their own
say what is wrong with them.
-/
inductive Misfit where
  | unreadable
  | missing (field : String)
  | refused (detail : String)
deriving DecidableEq

/--
The wording of the misfit. A value that merely has the wrong shape has none here, because its wording is
the JSON library's own.
-/
def Misfit.message? : Misfit → Option String
  | .unreadable => none
  | .missing field => some s!"missing field `{field}`"
  | .refused detail => some detail

/--
The fields of a structure: the declared names, each with the test that a value under that name has to
pass, and the structure that the values under the names build.
-/
structure Fields (α : Type) where
  checks : List (String × (Json → Except Misfit Unit))
  build : (String → Option Json) → Except Misfit α

namespace Fields

variable {α β : Type}

def required (name : String) (read : Json → Except Misfit α) : Fields α where
  checks := [(name, fun value => (read value).map fun _ => ())]
  build look :=
    match look name with
    | some value => read value
    | none => .error (.missing name)

def orNull (read : Json → Except Misfit α) : Json → Except Misfit (Option α)
  | .null => .ok none
  | value => (read value).map some

theorem orNull_ofOption {read : Json → Except Misfit α} {write : α → Json}
    (hr : ∀ a, read (write a) = .ok a) (hw : ∀ a, write a ≠ .null) (o : Option α) :
    orNull read (.ofOption write o) = .ok o := by
  cases o with
  | none => rfl
  | some a =>
    dsimp only [Json.ofOption]
    unfold orNull
    split
    · next hnull => exact absurd hnull (hw a)
    · rw [hr, Except.map]

def optional (name : String) (read : Json → Except Misfit α) : Fields (Option α) where
  checks := [(name, fun value => (orNull read value).map fun _ => ())]
  build look :=
    match look name with
    | some value => orNull read value
    | none => .ok none

instance : Applicative Fields where
  pure a := ⟨[], fun _ => .ok a⟩
  seq f x := ⟨f.checks ++ (x ()).checks, fun look => do
    let g ← f.build look
    let a ← (x ()).build look
    return g a⟩

/--
Tests the fields of an object in the order they stand in. Unknown names are passed over, and a known name
may stand only once; `seen` holds those that have stood already.
-/
def visit (checks : List (String × (Json → Except Misfit Unit))) (seen : List String) :
    List (String × Json) → Except Misfit Unit
  | [] => .ok ()
  | (name, value) :: rest =>
    match checks.lookup name with
    | none => visit checks seen rest
    | some check =>
      if seen.contains name then .error .unreadable
      else do
        check value
        visit checks (name :: seen) rest

def readObject (fields : Fields α) (values : List (String × Json)) : Except Misfit α := do
  visit fields.checks [] values
  fields.build fun name => values.lookup name

def visitItems : List (String × (Json → Except Misfit Unit)) → List Json → Except Misfit Unit
  | [], [] => .ok ()
  | (_, check) :: checks, item :: items => do
    check item
    visitItems checks items
  | _, _ => .error .unreadable

def readItems (fields : Fields α) (items : List Json) : Except Misfit α := do
  visitItems fields.checks items
  fields.build fun name => ((fields.checks.map Prod.fst).zip items).lookup name

def read (fields : Fields α) : Json → Except Misfit α
  | .object values => fields.readObject values
  | .array items => fields.readItems items
  | _ => .error .unreadable

def readNamed (fields : Fields α) : Json → Except Misfit α
  | .object values => fields.readObject values
  | _ => .error .unreadable

@[simp]
theorem read_object (fields : Fields α) (values : List (String × Json)) :
    fields.read (.object values) =
      (visit fields.checks [] values).bind fun _ => fields.build fun name => values.lookup name := rfl

@[simp]
theorem readNamed_object (fields : Fields α) (values : List (String × Json)) :
    fields.readNamed (.object values) =
      (visit fields.checks [] values).bind fun _ => fields.build fun name => values.lookup name := rfl

@[simp]
theorem checks_map (g : α → β) (fields : Fields α) : (g <$> fields).checks = fields.checks := rfl

@[simp]
theorem checks_seq (fields : Fields (α → β)) (field : Fields α) :
    (fields <*> field).checks = fields.checks ++ field.checks := rfl

@[simp]
theorem checks_required (name : String) (read : Json → Except Misfit α) :
    (required name read).checks = [(name, fun value => (read value).map fun _ => ())] := rfl

@[simp]
theorem checks_optional (name : String) (read : Json → Except Misfit α) :
    (optional name read).checks = [(name, fun value => (orNull read value).map fun _ => ())] := rfl

@[simp]
theorem build_map (g : α → β) (fields : Fields α) (look : String → Option Json) :
    (g <$> fields).build look = (fields.build look).map g := by
  dsimp only [Functor.map, pure, bind, Except.bind]
  cases fields.build look with
  | error e => rfl
  | ok a => rfl

@[simp]
theorem build_seq (fields : Fields (α → β)) (field : Fields α) (look : String → Option Json) :
    (fields <*> field).build look = (fields.build look).bind fun g => (field.build look).map g := by
  dsimp only [Seq.seq, bind, Except.bind]
  cases fields.build look with
  | error e => rfl
  | ok g =>
    cases field.build look with
    | error e => rfl
    | ok a => rfl

end Fields

namespace Json

def readBool : Json → Except Misfit Bool
  | .bool b => .ok b
  | _ => .error .unreadable

def readText : Json → Except Misfit String
  | .text s => .ok s
  | _ => .error .unreadable

def readUInt64 : Json → Except Misfit UInt64
  | .number (.unsigned n) => .ok n
  | _ => .error .unreadable

def readUInt32 : Json → Except Misfit UInt32
  | .number (.unsigned n) => if n.toNat < UInt32.size then .ok n.toUInt32 else .error .unreadable
  | _ => .error .unreadable

def readUInt8 : Json → Except Misfit UInt8
  | .number (.unsigned n) => if n.toNat < UInt8.size then .ok n.toUInt8 else .error .unreadable
  | _ => .error .unreadable

def readInt64 : Json → Except Misfit Int64
  | .number (.unsigned n) => if n.toNat < UInt64.size / 2 then .ok n.toInt64 else .error .unreadable
  | .number (.negative n) => .ok n
  | _ => .error .unreadable

def readInt32 (j : Json) : Except Misfit Int32 := do
  let n ← readInt64 j
  if n.toInt32.toInt64 = n then return n.toInt32 else .error .unreadable

def readItems (read : Json → Except Misfit α) : Json → Except Misfit (List α)
  | .array items => items.mapM read
  | _ => .error .unreadable

theorem readItems_map {read : Json → Except Misfit α} {write : α → Json} (h : ∀ a, read (write a) = .ok a)
    (l : List α) : readItems read (.array (l.map write)) = .ok l := by
  dsimp only [readItems]
  induction l with
  | nil => rfl
  | cons a rest ih =>
    rw [List.map_cons, List.mapM_cons, h, ih]
    rfl

/--
Reads one of finitely many named values: its name, or an object that has null under the name and nothing
else.
-/
def readEnum (values : List (String × α)) : Json → Except Misfit α
  | .text name | .object [(name, .null)] => (values.lookup name).elim (.error .unreadable) .ok
  | _ => .error .unreadable

def ofUInt64 (n : UInt64) : Json := .number (.unsigned n)

def ofUInt32 (n : UInt32) : Json := ofUInt64 n.toUInt64

def ofUInt8 (n : UInt8) : Json := ofUInt64 n.toUInt64

theorem bind_readText {α : Type} (s : String) (read : String → Except Misfit α) :
    (readText (.text s) >>= read) = read s := rfl

@[simp]
theorem readUInt64_ofUInt64 (n : UInt64) : readUInt64 (ofUInt64 n) = .ok n := rfl

@[simp]
theorem readUInt32_ofUInt32 (n : UInt32) : readUInt32 (ofUInt32 n) = .ok n := by
  have h : n.toUInt64.toNat < UInt32.size := by
    rw [UInt32.toNat_toUInt64]
    exact n.toNat_lt
  dsimp only [ofUInt32, ofUInt64, readUInt32]
  rw [if_pos h, UInt32.toUInt32_toUInt64]

@[simp]
theorem readUInt8_ofUInt8 (n : UInt8) : readUInt8 (ofUInt8 n) = .ok n := by
  have h : n.toUInt64.toNat < UInt8.size := by
    rw [UInt8.toNat_toUInt64]
    exact n.toNat_lt
  dsimp only [ofUInt8, ofUInt64, readUInt8]
  rw [if_pos h, UInt8.toUInt8_toUInt64]

end Json

theorem Fields.orNull_text (o : Option String) :
    Fields.orNull Json.readText (.ofOption Json.text o) = .ok o := by
  cases o <;> rfl

end ChainIndex
