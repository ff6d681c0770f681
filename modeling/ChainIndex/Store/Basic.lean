import ChainIndex.Error
import ChainIndex.Record.Basic
import ChainIndex.Store.OrderedMap

/-!
This module contains what every store of records offers: lookup by key, scans in order, counts under a
filter, and writes of one key at a time. Records are ordered by their ordinals; records that share an
ordinal are ordered by the texts of their keys.
-/

namespace ChainIndex

structure SortKey where
  ordinal : Ordinal
  key : String
deriving DecidableEq

namespace SortKey

instance : LT SortKey where
  lt a b := a.ordinal < b.ordinal ∨ a.ordinal = b.ordinal ∧ a.key < b.key

instance : DecidableLT SortKey := fun a b =>
  inferInstanceAs (Decidable (a.ordinal < b.ordinal ∨ a.ordinal = b.ordinal ∧ a.key < b.key))

theorem lt_iff {a b : SortKey} :
    a < b ↔ a.ordinal < b.ordinal ∨ a.ordinal = b.ordinal ∧ a.key < b.key :=
  Iff.rfl

instance : LE SortKey where
  le a b := a.ordinal < b.ordinal ∨ a.ordinal = b.ordinal ∧ a.key ≤ b.key

instance : Std.IsLinearOrder SortKey where
  le_refl a := .inr ⟨rfl, Std.le_refl a.key⟩
  le_trans a b c hab hbc := by
    rcases hab with hlt | ⟨heq, hkey⟩
    · left
      rcases hbc with hlt' | ⟨heq', _⟩
      · exact Std.lt_trans hlt hlt'
      · rwa [← heq']
    · rcases hbc with hlt' | ⟨heq', hkey'⟩
      · left
        rwa [heq]
      · right
        exact ⟨heq.trans heq', Std.le_trans hkey hkey'⟩
  le_antisymm a b hab hba := by
    rcases hab with hlt | ⟨heq, hkey⟩
    · rcases hba with hgt | ⟨heq', _⟩
      · exact absurd hgt (Std.not_gt_of_lt hlt)
      · exact absurd heq'.symm (Std.ne_of_lt hlt)
    · rcases hba with hgt | ⟨_, hkey'⟩
      · exact absurd heq.symm (Std.ne_of_lt hgt)
      · cases a
        cases b
        cases heq
        cases Std.le_antisymm hkey hkey'
        rfl
  le_total a b := by
    rcases Std.lt_trichotomy a.ordinal b.ordinal with hlt | heq | hgt
    · left
      exact .inl hlt
    · cases Std.le_total (a := a.key) (b := b.key) with
      | inl hkey =>
        left
        exact .inr ⟨heq, hkey⟩
      | inr hkey =>
        right
        exact .inr ⟨heq.symm, hkey⟩
    · right
      exact .inl hgt

instance : Std.LawfulOrderLT SortKey where
  lt_iff a b := by
    constructor
    · rintro (hlt | ⟨heq, hkey⟩)
      · refine ⟨.inl hlt, ?_⟩
        rintro (hgt | ⟨heq, _⟩)
        · exact Std.not_gt_of_lt hlt hgt
        · exact Std.ne_of_lt hlt heq.symm
      · refine ⟨.inr ⟨heq, Std.le_of_lt hkey⟩, ?_⟩
        rintro (hgt | ⟨_, hkey'⟩)
        · exact Std.ne_of_lt hgt heq.symm
        · exact Std.not_lt_of_ge hkey' hkey
    · rintro ⟨hlt | ⟨heq, _⟩, hnot⟩
      · exact .inl hlt
      · right
        refine ⟨heq, Std.not_le.1 ?_⟩
        intro hkey
        exact hnot (.inr ⟨heq.symm, hkey⟩)

def ofRecord {ρ κ : Type} [RecordKey κ] [Record ρ κ] (r : ρ) : SortKey :=
  ⟨Record.ordinal r, RecordKey.encode (Record.key r)⟩

end SortKey

inductive SortOrder where
  | ascending
  | descending
deriving DecidableEq

structure ScanRange where
  after : Option SortKey
  order : SortOrder
deriving DecidableEq

def ScanRange.admits (range : ScanRange) (key : SortKey) : Bool :=
  match range.after, range.order with
  | none, _ => true
  | some place, .ascending => place < key
  | some place, .descending => key < place

def ScanRange.maxLimit : Nat := UInt64.size - 1

inductive UpsertOutcome where
  | inserted
  | updated
deriving DecidableEq

/--
What to write under a key: nothing, a record that takes over the ordinal of the one in its place, or a
record with an ordinal of its own.
-/
inductive Write (ρ : Type) where
  | skip
  | put (record : ρ)
  | replace (record : ρ)
deriving DecidableEq

namespace Write

variable {ρ κ : Type}

def written? : Write ρ → Option ρ
  | skip => none
  | put r => some r
  | replace r => some r

def foreignKey? [RecordKey κ] [Record ρ κ] (key : String) (w : Write ρ) : Option String :=
  (w.written?.map fun r => RecordKey.encode (Record.key r)).filter (· ≠ key)

end Write

abbrev Planner (ρ : Type) :=
  Option ρ → Except IndexError (Write ρ)

structure Applied (ρ : Type) where
  previous : Option ρ
  write : Write ρ
deriving DecidableEq

/--
Stores of type `σ` with records of type `ρ`. Writes answer together with the store after them, which is
the store before them when they fail.
-/
class RecordStore (σ : Type) (ρ κ : outParam Type) where
  lookup : σ → κ → Except IndexError (Option ρ)
  ordinalIn : σ → κ → Filter → Except IndexError (Option Ordinal)
  scan : σ → Filter → ScanRange → Nat → Except IndexError (List ρ)
  count : σ → Filter → Except IndexError Nat
  upsert : σ → ρ → Except IndexError (UpsertOutcome × ρ) × σ
  merge : σ → κ → Planner ρ → Except IndexError (Applied ρ) × σ

def Filter.ensureValid (f : Filter) : Except IndexError Unit :=
  f.validate.mapError FilterFault.toError

end ChainIndex
