import ChainIndex.Chain.Position
import ChainIndex.Key
import ChainIndex.Kind

/-!
This module contains what every kind of indexed record has in common: a key that never changes, an ordinal
that the store may settle, and a JSON form that reads back to the record.
-/

namespace ChainIndex

class Record (ρ : Type) (κ : outParam Type) where
  kind : RecordKind
  key : ρ → κ
  ordinal : ρ → Ordinal
  setOrdinal : Ordinal → ρ → ρ
  toJson : ρ → Json
  ofJson : Json → Except Misfit ρ
  key_setOrdinal : ∀ o r, key (setOrdinal o r) = key r
  ordinal_setOrdinal : ∀ o r, ordinal (setOrdinal o r) = o
  setOrdinal_ordinal : ∀ r, setOrdinal (ordinal r) r = r
  setOrdinal_setOrdinal : ∀ o o' r, setOrdinal o (setOrdinal o' r) = setOrdinal o r
  ofJson_toJson : ∀ r, ofJson (toJson r) = .ok r

end ChainIndex
