import ChainIndex.Proofs.Reconcile.SwapHistory

/-!
This module contains what becomes of the state of a swap when an event that has been delivered before is
delivered once more. A trade that comes again changes nothing, and neither does the latest snapshot. A snapshot
that another one has followed brings its own reserves back.
-/

namespace ChainIndex

namespace SwapState

def isOutdated (past : List SwapState) (event : SwapState) : Bool :=
  event.isSnapshot && latestReserves? past != some event.reserves

variable {precision : UInt8} {past : List SwapState} {event : SwapState}

theorem isOutdated_iff :
    event.isOutdated past = true ↔ event.isSnapshot = true ∧ latestReserves? past ≠ some event.reserves := by
  unfold isOutdated
  rw [Bool.and_eq_true, bne_iff_ne]

theorem find?_append_of_mem {p : SwapState → Bool} (h : event ∈ past) : (past ++ [event]).find? p = past.find? p := by
  rw [List.find?_append, List.find?_singleton]
  split
  · next hp =>
    have hfound : (past.find? p).isSome := List.find?_isSome.2 ⟨event, h, hp⟩
    rw [Option.or_of_isSome hfound]
  · apply Option.or_none

theorem leading?_append_of_mem (h : event ∈ past) :
    leading? precision (past ++ [event]) = leading? precision past := by
  unfold leading?
  rw [find?_append_of_mem h, find?_append_of_mem h]

theorem ofHistory?_append_of_mem (h : event ∈ past) :
    ofHistory? precision (past ++ [event]) =
      if event.isSnapshot then (ofHistory? precision past).map fun state => { state with reserves := event.reserves }
      else ofHistory? precision past := by
  unfold ofHistory?
  rw [leading?_append_of_mem h, latestReserves?_append]
  split
  · rw [Option.map_map]
    rfl
  · rfl

theorem exists_of_snapshot_mem (precision : UInt8) (h : event ∈ past) (hsnapshot : event.isSnapshot = true) :
    ∃ state, ofHistory? precision past = some state ∧ latestReserves? past = some state.reserves := by
  have hlatest : (past.reverse.find? isSnapshot).isSome :=
    List.find?_isSome.2 ⟨event, List.mem_reverse.2 h, hsnapshot⟩
  obtain ⟨latest, hlatest⟩ := Option.isSome_iff_exists.1 hlatest
  have hnotnone : ofHistory? precision past ≠ none := by
    intro hnone
    have hdust := ofHistory?_eq_none_iff.1 hnone event h
    rw [isDust_iff, hsnapshot] at hdust
    exact Bool.noConfusion hdust.2
  obtain ⟨state, hstate⟩ := Option.ne_none_iff_exists'.1 hnotnone
  refine ⟨state, hstate, ?_⟩
  unfold ofHistory? latestReserves? at hstate
  obtain ⟨led, _, hled⟩ := Option.map_eq_some_iff.1 hstate
  unfold latestReserves?
  rw [← hled, hlatest]
  rfl

theorem ofHistory?_append_of_not_outdated (h : event ∈ past) (hcurrent : ¬event.isOutdated past = true) :
    ofHistory? precision (past ++ [event]) = ofHistory? precision past := by
  rw [ofHistory?_append_of_mem h]
  split
  · next hsnapshot =>
    obtain ⟨state, hstate, hlatest⟩ := exists_of_snapshot_mem precision h hsnapshot
    have hreserves : state.reserves = event.reserves := by
      apply Decidable.byContradiction
      intro hlater
      apply hcurrent
      rw [isOutdated_iff, hlatest]
      exact ⟨hsnapshot, fun heq => hlater (Option.some.inj heq)⟩
    rw [hstate, Option.map_some, ← hreserves]
  · rfl

theorem ofHistory?_append_of_outdated (precision : UInt8) (h : event ∈ past)
    (houtdated : event.isOutdated past = true) :
    ∃ state, ofHistory? precision past = some state ∧ latestReserves? past = some state.reserves ∧
      state.reserves ≠ event.reserves ∧
      ofHistory? precision (past ++ [event]) = some { state with reserves := event.reserves } := by
  obtain ⟨hsnapshot, hlater⟩ := isOutdated_iff.1 houtdated
  obtain ⟨state, hstate, hlatest⟩ := exists_of_snapshot_mem precision h hsnapshot
  refine ⟨state, hstate, hlatest, ?_, ?_⟩
  · intro heq
    rw [hlatest, heq] at hlater
    exact hlater rfl
  · rw [ofHistory?_append_of_mem h, if_pos hsnapshot, hstate]
    rfl

end SwapState

namespace Reconciler

variable {r : Reconciler} {past : List SwapState} {event : SwapState}

theorem reflects_empty (burns : Listing BurnEntry) (cache : Option (Cache SwapState)) (precision : UInt8) :
    (⟨burns, ⟨.empty, cache⟩, precision⟩ : Reconciler).Reflects [] := by
  constructor
  · exact MemoryStore.consistent_empty
  · intro key
    rfl

theorem mem_eventsOf (h : event ∈ past) : event ∈ eventsOf event.rekey.key past :=
  List.mem_filter.2 ⟨h, decide_eq_true rfl⟩

theorem Reflects.find?_deliverSwap (h : r.Reflects past) (event : SwapState) :
    (r.deliverSwap event).2.swaps.store.find? (RecordKey.encode event.rekey.key) =
      SwapState.ofHistory? r.precision (eventsOf event.rekey.key past ++ [event]) := by
  have hfind := (h.deliverSwap event).find?_eq event.rekey.key
  rw [eventsOf_append, if_pos rfl] at hfind
  exact hfind

theorem Reflects.deliverSwap_again (h : r.Reflects past) (hmem : event ∈ past)
    (hcurrent : ¬event.isOutdated (eventsOf event.rekey.key past) = true) :
    (r.deliverSwap event).2.swaps.store = r.swaps.store := by
  apply (h.deliverSwap event).consistent.eq_of_find? h.consistent
  intro key
  by_cases hown : key = RecordKey.encode event.rekey.key
  · rw [hown, h.find?_deliverSwap, h.find?_eq]
    exact SwapState.ofHistory?_append_of_not_outdated (mem_eventsOf hmem) hcurrent
  · rw [store_deliverSwap]
    exact r.swaps.store.find?_merge_of_ne _ hown

/--
An event that has been delivered, whenever that was, changes neither the state of its swap nor any listing when it
is delivered again, with one exception: an outdated snapshot puts its reserves in the place of the latest ones.
-/
theorem deliverSwaps_again (burns : Listing BurnEntry) (cache : Option (Cache SwapState)) (precision : UInt8)
    {events : List SwapState} {event : SwapState} (hmem : event ∈ events) :
    let run := (⟨burns, ⟨.empty, cache⟩, precision⟩ : Reconciler).deliverSwaps events
    let before := run.swaps.store
    let after := (run.deliverSwap event).2.swaps.store
    let own := eventsOf event.rekey.key events
    (¬event.isOutdated own = true → after = before ∧ ∀ f token count,
      (⟨after, none⟩ : Listing SwapState).list f token count =
        (⟨before, none⟩ : Listing SwapState).list f token count) ∧
    (event.isOutdated own = true → ∃ state, RecordStore.lookup before event.rekey.key = .ok (some state) ∧
      SwapState.latestReserves? own = some state.reserves ∧ state.reserves ≠ event.reserves ∧
      RecordStore.lookup after event.rekey.key = .ok (some { state with reserves := event.reserves })) := by
  have h : ((⟨burns, ⟨.empty, cache⟩, precision⟩ : Reconciler).deliverSwaps events).Reflects events :=
    (reflects_empty burns cache precision).deliverSwaps events
  intro run before after own
  constructor
  · intro hcurrent
    have hsame : after = before := h.deliverSwap_again hmem hcurrent
    refine ⟨hsame, ?_⟩
    intro f token count
    rw [hsame]
  · intro houtdated
    obtain ⟨state, hstate, hlatest, hlater, hagain⟩ :=
      SwapState.ofHistory?_append_of_outdated run.precision (mem_eventsOf hmem) houtdated
    refine ⟨state, ?_, hlatest, hlater, ?_⟩
    · exact congrArg Except.ok ((h.find?_eq event.rekey.key).trans hstate)
    · exact congrArg Except.ok ((h.find?_deliverSwap event).trans hagain)

def firstSnapshot : SwapState :=
  { snapshotAt 1 10 with reserves := ⟨.saturate 500, .saturate 600⟩ }

def secondSnapshot : SwapState :=
  { snapshotAt 1 11 with reserves := ⟨.saturate 700, .saturate 800⟩ }

theorem eventsOf_snapshots :
    eventsOf firstSnapshot.rekey.key [firstSnapshot, secondSnapshot] = [firstSnapshot, secondSnapshot] := by
  apply List.filter_eq_self.2
  intro event hevent
  apply decide_eq_true
  simp only [List.mem_cons, List.not_mem_nil, or_false] at hevent
  cases hevent with
  | inl hfirst =>
    rw [hfirst]
    rfl
  | inr hsecond =>
    rw [hsecond]
    rfl

theorem deliverSwaps_again_first_snapshot :
    let run := (create 6 none).deliverSwaps [firstSnapshot, secondSnapshot]
    firstSnapshot ∈ [firstSnapshot, secondSnapshot] ∧
    ∃ state, RecordStore.lookup run.swaps.store firstSnapshot.rekey.key = .ok (some state) ∧
      state.reserves = secondSnapshot.reserves ∧
      RecordStore.lookup (run.deliverSwap firstSnapshot).2.swaps.store firstSnapshot.rekey.key =
        .ok (some { state with reserves := firstSnapshot.reserves }) ∧
      { state with reserves := firstSnapshot.reserves } ≠ state := by
  have hcreate : create 6 none = ⟨⟨.empty, none⟩, ⟨.empty, none⟩, 6⟩ := rfl
  rw [hcreate]
  dsimp only
  have hmem : firstSnapshot ∈ [firstSnapshot, secondSnapshot] := List.mem_cons_self
  have hagain := (deliverSwaps_again ⟨.empty, none⟩ none 6 hmem).2
  rw [eventsOf_snapshots] at hagain
  obtain ⟨state, hbefore, hlatest, hlater, hafter⟩ := hagain (by decide +kernel)
  have hsecond : SwapState.latestReserves? [firstSnapshot, secondSnapshot] = some secondSnapshot.reserves := rfl
  rw [hsecond, Option.some.injEq] at hlatest
  refine ⟨hmem, state, hbefore, hlatest.symm, hafter, ?_⟩
  intro heq
  exact hlater (congrArg SwapState.reserves heq).symm

end Reconciler

end ChainIndex
