import ChainIndex.Listing.Cache
import ChainIndex.Store.Memory

/-!
This module contains the proof that the index of a store in memory and its records always agree, and what
a write does to the records that are found under their keys.
-/

namespace ChainIndex

namespace MemoryStore

variable {ρ κ : Type} [RecordKey κ] [Record ρ κ]

open Cache (keyText)

/--
Every record is filed under its own place, and the index leads to exactly the places that are taken.
-/
structure Consistent (s : MemoryStore ρ) : Prop where
  filed : ∀ place r, s.byPlace.get? place = some r → place = SortKey.ofRecord r
  indexed : ∀ place : SortKey,
    (s.byPlace.get? place).isSome ↔ s.ordinals.get? place.key = some place.ordinal

def overwrite (s : MemoryStore ρ) (r : ρ) : MemoryStore ρ :=
  (s.erase (keyText r)).insert r

theorem find?_eq (s : MemoryStore ρ) (key : String) :
    s.find? key = (s.ordinals.get? key).bind fun ordinal => s.byPlace.get? ⟨ordinal, key⟩ := by
  unfold find? place?
  cases s.ordinals.get? key <;> rfl

@[simp]
theorem byPlace_insert (s : MemoryStore ρ) (r : ρ) :
    (s.insert r).byPlace = s.byPlace.insert (SortKey.ofRecord r) r := rfl

@[simp]
theorem ordinals_insert (s : MemoryStore ρ) (r : ρ) :
    (s.insert r).ordinals = s.ordinals.insert (keyText r) (Record.ordinal r) := rfl

theorem consistent_empty : (empty : MemoryStore ρ).Consistent := by
  constructor
  · intro place r h
    simp [empty] at h
  · intro place
    simp [empty]

namespace Consistent

variable {s : MemoryStore ρ}

theorem find?_eq_some_iff (h : s.Consistent) {key : String} {r : ρ} :
    s.find? key = some r ↔ keyText r = key ∧ s.byPlace.get? (SortKey.ofRecord r) = some r := by
  rw [find?_eq]
  constructor
  · intro hf
    obtain ⟨ordinal, ho, hr⟩ := Option.bind_eq_some_iff.1 hf
    have hplace := h.filed _ r hr
    constructor
    · exact (congrArg SortKey.key hplace).symm
    · rwa [← hplace]
  · rintro ⟨rfl, hr⟩
    have ho : s.ordinals.get? (keyText r) = some (Record.ordinal r) := by
      apply (h.indexed (SortKey.ofRecord r)).1
      simp [hr]
    rw [ho]
    exact hr

theorem key_of_find? (h : s.Consistent) {key : String} {r : ρ} (hr : s.find? key = some r) :
    keyText r = key :=
  (h.find?_eq_some_iff.1 hr).1

theorem get?_byPlace_eq_some_iff (h : s.Consistent) {place : SortKey} {r : ρ} :
    s.byPlace.get? place = some r ↔ SortKey.ofRecord r = place ∧ s.find? place.key = some r := by
  constructor
  · intro hr
    have hplace := h.filed place r hr
    rw [hplace] at hr ⊢
    exact ⟨rfl, h.find?_eq_some_iff.2 ⟨rfl, hr⟩⟩
  · rintro ⟨rfl, hr⟩
    exact (h.find?_eq_some_iff.1 hr).2

theorem get?_ordinals_eq (h : s.Consistent) (key : String) :
    s.ordinals.get? key = (s.find? key).map Record.ordinal := by
  cases ho : s.ordinals.get? key with
  | none =>
    rw [find?_eq, ho]
    rfl
  | some ordinal =>
    obtain ⟨r, hr⟩ := Option.isSome_iff_exists.1 ((h.indexed ⟨ordinal, key⟩).2 ho)
    obtain ⟨hplace, hfind⟩ := h.get?_byPlace_eq_some_iff.1 hr
    have hfind : s.find? key = some r := hfind
    rw [hfind]
    exact congrArg some (congrArg SortKey.ordinal hplace).symm

theorem eq_of_find? {t : MemoryStore ρ} (hs : s.Consistent) (ht : t.Consistent)
    (h : ∀ key, s.find? key = t.find? key) : s = t := by
  have hplace : s.byPlace = t.byPlace := by
    apply OrderedMap.eq_of_get?
    intro place
    apply Option.ext
    intro r
    rw [hs.get?_byPlace_eq_some_iff, ht.get?_byPlace_eq_some_iff, h]
  have hordinals : s.ordinals = t.ordinals := by
    apply OrderedMap.eq_of_get?
    intro key
    rw [hs.get?_ordinals_eq, ht.get?_ordinals_eq, h]
  cases s
  cases t
  cases hplace
  cases hordinals
  rfl

theorem insert (h : s.Consistent) {r : ρ} (hr : s.ordinals.get? (keyText r) = none) :
    (s.insert r).Consistent := by
  constructor
  · intro place x hx
    rw [byPlace_insert] at hx
    by_cases hp : place = SortKey.ofRecord r
    · rw [hp] at hx ⊢
      rw [OrderedMap.get?_insert_self, Option.some.injEq] at hx
      rw [hx]
    · rw [OrderedMap.get?_insert_of_ne _ hp] at hx
      exact h.filed place x hx
  · intro place
    rw [byPlace_insert, ordinals_insert]
    by_cases hp : place = SortKey.ofRecord r
    · rw [hp]
      simp [SortKey.ofRecord, keyText]
    · rw [OrderedMap.get?_insert_of_ne _ hp, h.indexed]
      by_cases hk : place.key = keyText r
      · have hne : Record.ordinal r ≠ place.ordinal := by
          intro ho
          apply hp
          cases place
          simp only at hk ho
          rw [hk, ← ho]
          rfl
        rw [hk, hr, OrderedMap.get?_insert_self]
        simp [hne]
      · rw [OrderedMap.get?_insert_of_ne _ hk]

theorem erase (h : s.Consistent) (key : String) : (s.erase key).Consistent := by
  unfold MemoryStore.erase
  split
  · next place hplace =>
    obtain ⟨ordinal, ho, hp⟩ := Option.map_eq_some_iff.1 hplace
    subst hp
    constructor
    · intro p x hx
      by_cases hpe : p = ⟨ordinal, key⟩
      · rw [hpe] at hx
        simp at hx
      · rw [OrderedMap.get?_erase_of_ne _ hpe] at hx
        exact h.filed p x hx
    · intro p
      by_cases hk : p.key = key
      · by_cases hpe : p = ⟨ordinal, key⟩
        · simp [hpe]
        · rw [OrderedMap.get?_erase_of_ne _ hpe, h.indexed, hk, ho]
          have hne : ordinal ≠ p.ordinal := by
            intro e
            apply hpe
            rw [e, ← hk]
          simp [hne]
      · have hpe : p ≠ ⟨ordinal, key⟩ := by
          intro e
          rw [e] at hk
          exact hk rfl
        rw [OrderedMap.get?_erase_of_ne _ hpe, OrderedMap.get?_erase_of_ne _ hk]
        exact h.indexed p
  · exact h

theorem place_of_mem (h : s.Consistent) {e : SortKey × ρ} (he : e ∈ s.byPlace.toList) :
    e.1 = SortKey.ofRecord e.2 := by
  apply h.filed
  exact OrderedMap.mem_toList_iff.1 he

theorem perm_index (h : s.Consistent) :
    (s.byPlace.toList.map fun e => (e.1.key, e.1.ordinal)).Perm s.ordinals.toList := by
  have hnodup : (s.byPlace.toList.map fun e => (e.1.key, e.1.ordinal)).Nodup := by
    apply List.pairwise_map.2
    apply s.byPlace.ascending.imp
    intro x y hlt heq
    apply Std.ne_of_lt hlt
    obtain ⟨hkey, hordinal⟩ := Prod.mk.inj heq
    cases hx : x.1
    cases hy : y.1
    rw [hx, hy] at hkey hordinal
    exact congr (congrArg SortKey.mk hordinal) hkey
  apply (List.perm_ext_iff_of_nodup hnodup s.ordinals.nodup_toList).2
  rintro ⟨key, ordinal⟩
  rw [OrderedMap.mem_toList_iff, ← h.indexed ⟨ordinal, key⟩, Option.isSome_iff_exists, List.mem_map]
  constructor
  · rintro ⟨⟨place, r⟩, hr, heq⟩
    obtain ⟨rfl, rfl⟩ := Prod.mk.inj heq
    exact ⟨r, OrderedMap.mem_toList_iff.1 hr⟩
  · rintro ⟨r, hr⟩
    exact ⟨(⟨ordinal, key⟩, r), OrderedMap.mem_toList_iff.2 hr, rfl⟩

theorem length_byPlace (h : s.Consistent) : s.byPlace.toList.length = s.size := by
  have hindex := h.perm_index.length_eq
  rw [List.length_map] at hindex
  exact hindex

end Consistent

@[simp]
theorem get?_ordinals_erase_self (s : MemoryStore ρ) (key : String) :
    (s.erase key).ordinals.get? key = none := by
  unfold erase place?
  cases ho : s.ordinals.get? key with
  | none => exact ho
  | some ordinal => simp

theorem Consistent.overwrite {s : MemoryStore ρ} (h : s.Consistent) (r : ρ) : (s.overwrite r).Consistent := by
  apply (h.erase (keyText r)).insert
  apply get?_ordinals_erase_self

theorem find?_insert_self (s : MemoryStore ρ) (r : ρ) : (s.insert r).find? (keyText r) = some r := by
  rw [find?_eq, byPlace_insert, ordinals_insert, OrderedMap.get?_insert_self]
  apply OrderedMap.get?_insert_self

theorem find?_insert_of_ne (s : MemoryStore ρ) {r : ρ} {key : String} (h : key ≠ keyText r) :
    (s.insert r).find? key = s.find? key := by
  rw [find?_eq, find?_eq, byPlace_insert, ordinals_insert]
  rw [OrderedMap.get?_insert_of_ne _ h]
  congr 1
  funext ordinal
  apply OrderedMap.get?_insert_of_ne
  intro e
  exact h (congrArg SortKey.key e)

theorem find?_erase_of_ne (s : MemoryStore ρ) {key other : String} (h : other ≠ key) :
    (s.erase key).find? other = s.find? other := by
  unfold erase place?
  cases ho : s.ordinals.get? key with
  | none => rfl
  | some ordinal =>
    rw [find?_eq, find?_eq]
    dsimp only [Option.map_some]
    rw [OrderedMap.get?_erase_of_ne _ h]
    congr 1
    funext o
    apply OrderedMap.get?_erase_of_ne
    intro e
    exact h (congrArg SortKey.key e)

@[simp]
theorem find?_overwrite_self (s : MemoryStore ρ) (r : ρ) : (s.overwrite r).find? (keyText r) = some r := by
  apply find?_insert_self

theorem find?_overwrite_of_ne (s : MemoryStore ρ) {r : ρ} {key : String} (h : key ≠ keyText r) :
    (s.overwrite r).find? key = s.find? key := by
  unfold overwrite
  rw [find?_insert_of_ne _ h, find?_erase_of_ne _ h]

end MemoryStore

end ChainIndex
