import ChainIndex.Proofs.Listing.Caching

/-!
This module contains what becomes of a listing that is only written through its cache, and the proof that
the cache changes none of its answers as long as no record moves.
-/

namespace ChainIndex

variable {ρ κ : Type} [RecordKey κ] [Record ρ κ]

namespace Engine

structure InStep (g : Listing ρ) : Prop where
  consistent : g.store.Consistent
  follows : ∀ c, g.cache = some c → c.total = none ∨ c.Follows g.store 0

namespace InStep

variable {g : Listing ρ}

theorem write (h : InStep g) {r : ρ} (hr : g.store.Steady r) : InStep (g.write r) := by
  constructor
  · exact h.consistent.overwrite r
  · intro c' hc'
    obtain ⟨c, hc, hwritten⟩ := Option.map_eq_some_iff.1 hc'
    subst hwritten
    cases h.follows c hc with
    | inl htotal =>
      left
      rw [Cache.total_recordWritten, htotal]
      split <;> rfl
    | inr hfollows =>
      right
      apply hfollows.recordWritten h.consistent
      right
      exact ⟨rfl, h.consistent.not_sinks_records hr⟩

theorem warm (h : InStep g) : InStep g.warm.2 := by
  rw [warm_eq h.consistent]
  constructor
  · exact h.consistent
  · intro c' hc'
    obtain ⟨c, _, hwarm⟩ := Option.map_eq_some_iff.1 hc'
    right
    rw [← hwarm]
    exact Cache.Follows.warm h.consistent c

theorem upsert (h : InStep g) (r : ρ) : InStep (g.upsert r).2 := by
  rw [upsert_eq_write]
  apply h.write
  apply MemoryStore.steady_keepOrdinal

theorem merge (h : InStep g) (key : κ) (plan : Planner ρ)
    (hplan : ∀ r, plan (g.store.find? (RecordKey.encode key)) ≠ .ok (.replace r)) :
    InStep (g.merge key plan).2 := by
  rcases g.merge_cases key plan with hg | ⟨r, _, hg⟩ | ⟨r, hr, _⟩
  · rwa [hg]
  · rw [hg]
    apply h.write
    apply MemoryStore.steady_keepOrdinal
  · exact absurd hr (hplan r)

theorem get (h : InStep g) (key : κ) : InStep (g.get key).2 := by
  rcases g.get_cases key with hg | ⟨r, hg⟩
  · rwa [hg]
  · rw [hg]
    constructor
    · exact h.consistent
    · intro c' hc'
      obtain ⟨c, hc, hremember⟩ := Option.map_eq_some_iff.1 hc'
      rw [← hremember, Cache.total_remember]
      cases h.follows c hc with
      | inl htotal =>
        left
        exact htotal
      | inr hfollows =>
        right
        exact hfollows.remember r

theorem list_eq (h : InStep g) (f : Filter) (token : Option String) (count : Int32) :
    g.list f token count = (⟨g.store, none⟩ : Listing ρ).list f token count := by
  apply list_eq_uncached_of
  intro _ _ hcount page hpage
  rw [← list_of_recentPage hcount hpage]
  symm
  obtain ⟨s, cache⟩ := g
  cases cache with
  | none => rfl
  | some c =>
    cases h.follows c rfl with
    | inl htotal =>
      unfold recentPage Cache.recentPage at hpage
      dsimp only [Bind.bind, Option.bind] at hpage
      rw [htotal] at hpage
      cases hpage
    | inr hfollows =>
      rw [list_eq_uncached_iff hfollows h.consistent]
      intro _ hlt
      apply hfollows.take_eq_of_le
      have := hfollows.bounded
      omega

end InStep

/--
What becomes of a listing that is read and filled through its cache, and written without moving a record
that is stored already.
-/
inductive Session (g : Listing ρ) : Listing ρ → Prop where
  | start : Session g g
  | warm {g' : Listing ρ} (h : Session g g') : Session g g'.warm.2
  | upsert {g' : Listing ρ} (h : Session g g') (r : ρ) : Session g (g'.upsert r).2
  | merge {g' : Listing ρ} (h : Session g g') (key : κ) (plan : Planner ρ)
    (hplan : ∀ r, plan (g'.store.find? (RecordKey.encode key)) ≠ .ok (.replace r)) :
    Session g (g'.merge key plan).2
  | get {g' : Listing ρ} (h : Session g g') (key : κ) : Session g (g'.get key).2

theorem Session.inStep {g g' : Listing ρ} (h : Session g g') (hg : InStep g) : InStep g' := by
  induction h with
  | start => exact hg
  | warm _ ih => exact ih.warm
  | upsert _ r ih => exact ih.upsert r
  | merge _ key plan hplan ih => exact ih.merge key plan hplan
  | get _ key ih => exact ih.get key

omit [RecordKey κ] [Record ρ κ] in
theorem total_empty (recordCapacity recentCapacity : Nat) :
    (Cache.empty recordCapacity recentCapacity : Cache ρ).total = none := rfl

theorem list_eq_uncached {s : MemoryStore ρ} (hs : s.Reachable) (recordCapacity recentCapacity : Nat)
    {g : Listing ρ} (hg : Session ⟨s, some (.empty recordCapacity recentCapacity)⟩ g) (f : Filter)
    (token : Option String) (count : Int32) :
    g.list f token count = (⟨g.store, none⟩ : Listing ρ).list f token count := by
  have hstart : InStep (⟨s, some (.empty recordCapacity recentCapacity)⟩ : Listing ρ) := by
    constructor
    · exact hs.consistent
    · intro c hc
      left
      rw [← Option.some.inj hc, total_empty]
  exact (hg.inStep hstart).list_eq f token count

def cachedEpochs : Listing Epoch :=
  ((⟨tiedEpochs, some (.empty 1 2)⟩ : Listing Epoch).warm.2.upsert (tiedEpoch 9)).2

theorem list_eq_uncached_tied_epochs :
    (cachedEpochs.recentPage 1).isSome ∧
    cachedEpochs.list .all none 1 = (⟨cachedEpochs.store, none⟩ : Listing Epoch).list .all none 1 := by
  have hg : Session ⟨tiedEpochs, some (.empty 1 2)⟩ cachedEpochs := .upsert (.warm .start) _
  constructor
  · decide +kernel
  · exact list_eq_uncached reachable_tiedEpochs 1 2 hg .all none 1

end Engine

end ChainIndex
