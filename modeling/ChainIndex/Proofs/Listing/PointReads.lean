import ChainIndex.Proofs.Listing.Session

/-!
This module contains the proof that a record that is read through the cache is the one that is stored, and that
the cache knows the right number of records if it knows one: whatever has been written, moved or refused, and
whichever records have left the cache and come back since.
-/

namespace ChainIndex

variable {ρ κ : Type} [RecordKey κ] [Record ρ κ]

open Cache (keyText)

namespace Cache

theorem get?_of_get?_evict {capacity : Nat} {queue : List String} {held : OrderedMap String ρ} {key : String}
    {r : ρ} (h : (evict capacity queue held).2.get? key = some r) : held.get? key = some r := by
  induction queue generalizing held with
  | nil => exact h
  | cons first queue ih =>
    unfold evict at h
    split at h
    · have hrest := ih h
      by_cases hkey : key = first
      · rw [hkey, OrderedMap.get?_erase_self] at hrest
        cases hrest
      · rwa [OrderedMap.get?_erase_of_ne _ hkey] at hrest
    · exact h

theorem held_remember_of_zero {c : Cache ρ} (h : c.recordCapacity = 0) (r : ρ) : (c.remember r).held = c.held := by
  unfold remember
  rw [if_pos h]

theorem get?_of_get?_remember {c : Cache ρ} (hcapacity : c.recordCapacity ≠ 0) {r x : ρ} {key : String}
    (h : (c.remember r).held.get? key = some x) :
    key = keyText r ∧ x = r ∨ key ≠ keyText r ∧ c.held.get? key = some x := by
  unfold remember at h
  rw [if_neg hcapacity] at h
  have hinserted := get?_of_get?_evict h
  by_cases hkey : key = keyText r
  · left
    rw [hkey, OrderedMap.get?_insert_self, Option.some.injEq] at hinserted
    exact ⟨hkey, hinserted.symm⟩
  · right
    rw [OrderedMap.get?_insert_of_ne _ hkey] at hinserted
    exact ⟨hkey, hinserted⟩

@[simp]
theorem recordCapacity_remember (c : Cache ρ) (r : ρ) : (c.remember r).recordCapacity = c.recordCapacity := by
  unfold remember
  split <;> rfl

/--
What is held is stored, and the total is that of the store if there is one. A cache without room holds nothing.
-/
structure Fresh (c : Cache ρ) (s : MemoryStore ρ) : Prop where
  stored : ∀ key r, c.held.get? key = some r → s.find? key = some r
  roomless : c.recordCapacity = 0 → ∀ key, c.held.get? key = none
  total : ∀ n, c.total = some n → n = s.records.length

namespace Fresh

variable {c : Cache ρ} {s : MemoryStore ρ}

theorem empty (recordCapacity recentCapacity : Nat) (s : MemoryStore ρ) :
    (Cache.empty recordCapacity recentCapacity).Fresh s := by
  constructor
  · intro key r h
    cases h
  · intro _ key
    rfl
  · intro n h
    cases h

theorem remember_of (hself : s.find? (keyText r) = some r)
    (hothers : ∀ key x, key ≠ keyText r → c.held.get? key = some x → s.find? key = some x)
    (hroomless : c.recordCapacity = 0 → ∀ key, c.held.get? key = none)
    (htotal : ∀ n, c.total = some n → n = s.records.length) : (c.remember r).Fresh s := by
  constructor
  · intro key x hx
    by_cases hcapacity : c.recordCapacity = 0
    · rw [held_remember_of_zero hcapacity, hroomless hcapacity] at hx
      cases hx
    · cases get?_of_get?_remember hcapacity hx with
      | inl hwritten =>
        rw [hwritten.1, hwritten.2]
        exact hself
      | inr hkept => exact hothers key x hkept.1 hkept.2
  · intro hcapacity key
    rw [recordCapacity_remember] at hcapacity
    rw [held_remember_of_zero hcapacity]
    exact hroomless hcapacity key
  · intro n hn
    rw [total_remember] at hn
    exact htotal n hn

theorem remember (h : c.Fresh s) {r : ρ} (hr : s.find? (keyText r) = some r) : (c.remember r).Fresh s := by
  apply remember_of hr
  · intro key x _ hx
    exact h.stored key x hx
  · exact h.roomless
  · exact h.total

theorem recordWritten (h : c.Fresh s) (hs : s.Consistent) (r : ρ) :
    (c.recordWritten r (s.find? (keyText r)).isNone).Fresh (s.overwrite r) := by
  unfold Cache.recordWritten
  apply remember_of
  · exact s.find?_overwrite_self r
  · intro key x hkey hx
    rw [s.find?_overwrite_of_ne hkey]
    exact h.stored key x hx
  · exact h.roomless
  · intro n hn
    rw [hs.length_records_overwrite]
    dsimp only at hn
    split at hn
    · next hnone =>
      obtain ⟨m, hm, hmn⟩ := Option.map_eq_some_iff.1 hn
      rw [if_pos hnone, ← hmn, h.total m hm]
    · next hsome =>
      rw [if_neg hsome]
      exact h.total n hn

theorem warm (h : c.Fresh s) (top : List ρ) : (c.warm top s.records.length).Fresh s := by
  constructor
  · exact h.stored
  · exact h.roomless
  · intro n hn
    exact (Option.some.inj hn).symm

end Fresh

end Cache

namespace Engine

structure UpToDate (g : Listing ρ) : Prop where
  consistent : g.store.Consistent
  fresh : ∀ c, g.cache = some c → c.Fresh g.store

namespace UpToDate

variable {g : Listing ρ}

theorem write (h : UpToDate g) (r : ρ) : UpToDate (g.write r) := by
  constructor
  · exact h.consistent.overwrite r
  · intro c' hc'
    obtain ⟨c, hc, hwritten⟩ := Option.map_eq_some_iff.1 hc'
    rw [← hwritten]
    exact (h.fresh c hc).recordWritten h.consistent r

theorem warm (h : UpToDate g) : UpToDate g.warm.2 := by
  rw [warm_eq h.consistent]
  constructor
  · exact h.consistent
  · intro c' hc'
    obtain ⟨c, hc, hwarm⟩ := Option.map_eq_some_iff.1 hc'
    rw [← hwarm]
    exact (h.fresh c hc).warm _

theorem upsert (h : UpToDate g) (r : ρ) : UpToDate (g.upsert r).2 := by
  rw [upsert_eq_write]
  apply h.write

theorem merge (h : UpToDate g) (key : κ) (plan : Planner ρ) : UpToDate (g.merge key plan).2 := by
  rcases g.merge_cases key plan with hg | ⟨r, _, hg⟩ | ⟨r, _, _, hg⟩
  · rwa [hg]
  · rw [hg]
    apply h.write
  · rw [hg]
    apply h.write

theorem get_eq (h : UpToDate g) (key : κ) : (g.get key).1 = .ok (g.store.find? (RecordKey.encode key)) := by
  have hlookup : RecordStore.lookup g.store key = .ok (g.store.find? (RecordKey.encode key)) := rfl
  unfold Engine.get
  cases hheld : g.cache.bind (·.get? key) with
  | some r =>
    obtain ⟨c, hc, hr⟩ := Option.bind_eq_some_iff.1 hheld
    rw [(h.fresh c hc).stored _ r hr]
  | none =>
    rw [hlookup]
    cases g.store.find? (RecordKey.encode key) <;> rfl

theorem get (h : UpToDate g) (key : κ) : UpToDate (g.get key).2 := by
  have hlookup : RecordStore.lookup g.store key = .ok (g.store.find? (RecordKey.encode key)) := rfl
  unfold Engine.get
  rw [hlookup]
  split
  · exact h
  · cases hr : g.store.find? (RecordKey.encode key) with
    | none => exact h
    | some r =>
      constructor
      · exact h.consistent
      · intro c' hc'
        obtain ⟨c, hc, hremember⟩ := Option.map_eq_some_iff.1 hc'
        rw [← hremember]
        apply (h.fresh c hc).remember
        rw [h.consistent.key_of_find? hr]
        exact hr

end UpToDate

/--
What becomes of a listing that is used in any way: records are read, written, moved and refused, and the cache
is filled anew. Reading pages leaves a listing as it is.
-/
inductive Usage (g : Listing ρ) : Listing ρ → Prop where
  | start : Usage g g
  | warm {g' : Listing ρ} (h : Usage g g') : Usage g g'.warm.2
  | upsert {g' : Listing ρ} (h : Usage g g') (r : ρ) : Usage g (g'.upsert r).2
  | merge {g' : Listing ρ} (h : Usage g g') (key : κ) (plan : Planner ρ) : Usage g (g'.merge key plan).2
  | get {g' : Listing ρ} (h : Usage g g') (key : κ) : Usage g (g'.get key).2

theorem Usage.upToDate {g g' : Listing ρ} (h : Usage g g') (hg : UpToDate g) : UpToDate g' := by
  induction h with
  | start => exact hg
  | warm _ ih => exact ih.warm
  | upsert _ r ih => exact ih.upsert r
  | merge _ key plan ih => exact ih.merge key plan
  | get _ key ih => exact ih.get key

theorem Usage.isSome_cache {g g' : Listing ρ} (h : Usage g g') (hg : UpToDate g) (hc : g.cache.isSome) :
    g'.cache.isSome := by
  have hwrite : ∀ (g : Listing ρ) (r : ρ), (g.write r).cache.isSome = g.cache.isSome := by
    intro g r
    apply Option.isSome_map
  induction h with
  | start => exact hc
  | warm h ih =>
    rw [warm_eq (h.upToDate hg).consistent]
    simpa using ih
  | upsert _ r ih => rwa [upsert_eq_write, hwrite]
  | @merge g' _ key plan ih =>
    rcases g'.merge_cases key plan with hkept | ⟨r, _, hput⟩ | ⟨r, _, _, hreplaced⟩
    · rwa [hkept]
    · rwa [hput, hwrite]
    · rwa [hreplaced, hwrite]
  | @get g' _ key ih =>
    rcases g'.get_cases key with hkept | ⟨r, hremembered⟩
    · rwa [hkept]
    · rw [hremembered]
      simpa using ih

/--
A record is read as it is stored, at any moment and however the listing has been used up to then.
-/
theorem get_eq_lookup {s : MemoryStore ρ} (hs : s.Reachable) (recordCapacity recentCapacity : Nat)
    {g : Listing ρ} (hg : Usage ⟨s, some (.empty recordCapacity recentCapacity)⟩ g) :
    (∀ key : κ, (g.get key).1 = RecordStore.lookup g.store key) ∧
    ∃ c, g.cache = some c ∧ ∀ total, c.total = some total → RecordStore.count g.store .all = .ok total := by
  have hstart : UpToDate (⟨s, some (.empty recordCapacity recentCapacity)⟩ : Listing ρ) := by
    constructor
    · exact hs.consistent
    · intro c hc
      rw [← Option.some.inj hc]
      exact .empty recordCapacity recentCapacity s
  have h := hg.upToDate hstart
  constructor
  · intro key
    exact h.get_eq key
  · obtain ⟨c, hc⟩ := Option.isSome_iff_exists.1 (hg.isSome_cache hstart rfl)
    refine ⟨c, hc, ?_⟩
    intro total htotal
    have hcount : RecordStore.count g.store .all = _ := g.store.count_eq rfl
    rw [hcount, MemoryStore.matching_all, (h.fresh c hc).total total htotal]

def raisedEpoch : Epoch :=
  { tiedEpoch 7 with ordinal := ⟨9⟩ }

def movedEpochs : Listing Epoch :=
  let filled := (((⟨tiedEpochs, some (.empty 1 2)⟩ : Listing Epoch).warm.2.get 7).2.get 10).2
  (filled.merge 7 fun _ => .ok (.replace raisedEpoch)).2

theorem get_eq_lookup_moved_epoch :
    movedEpochs.cache.bind (·.get? (7 : UInt64)) = some raisedEpoch ∧
    movedEpochs.cache.bind (·.get? (10 : UInt64)) = none ∧
    (movedEpochs.get 7).1 = .ok (some raisedEpoch) ∧
    (movedEpochs.get 10).1 = .ok (some (tiedEpoch 10)) := by
  have hg : Usage ⟨tiedEpochs, some (.empty 1 2)⟩ movedEpochs := .merge (.get (.get (.warm .start) 7) 10) 7 _
  have hlookup := (get_eq_lookup reachable_tiedEpochs 1 2 hg).1
  refine ⟨by decide +kernel, by decide +kernel, ?_, ?_⟩
  · have hfind : movedEpochs.store.find? (RecordKey.encode (7 : UInt64)) = some raisedEpoch := by decide +kernel
    exact (hlookup 7).trans (congrArg Except.ok hfind)
  · have hfind : movedEpochs.store.find? (RecordKey.encode (10 : UInt64)) = some (tiedEpoch 10) := by decide +kernel
    exact (hlookup 10).trans (congrArg Except.ok hfind)

end Engine

end ChainIndex
