import ChainIndex.Proofs.Reconcile.SwapListing

/-!
This module contains the state of a swap as a function of what has been delivered for it: the first trade
that is not dust leads, the first snapshot where there is no such trade, and the reserves are those of the
latest snapshot wherever it stands. Events of other swaps do not enter.
-/

namespace ChainIndex

open Cache (keyText)

namespace SwapState

def isSnapshot (event : SwapState) : Bool :=
  event.swapType == .sync

def isTrade (precision : UInt8) (event : SwapState) : Bool :=
  event.swapType == .swap && !event.hasDustLegs precision

def leading? (precision : UInt8) (events : List SwapState) : Option SwapState :=
  (events.find? (isTrade precision)).or (events.find? isSnapshot)

def latestReserves? (events : List SwapState) : Option Reserves :=
  (events.reverse.find? isSnapshot).map reserves

def ofHistory? (precision : UInt8) (events : List SwapState) : Option SwapState :=
  (leading? precision events).map fun event =>
    { event.rekey with reserves := (latestReserves? events).getD event.reserves }

section kinds

variable {precision : UInt8} {event : SwapState}

theorem kind_cases (precision : UInt8) (event : SwapState) :
    (event.isDust precision = true ∧ event.isSnapshot = false ∧ event.isTrade precision = false) ∨
    (event.isDust precision = false ∧ event.isSnapshot = true ∧ event.isTrade precision = false) ∨
    (event.isDust precision = false ∧ event.isSnapshot = false ∧ event.isTrade precision = true) := by
  unfold isDust isSnapshot isTrade
  cases event.swapType with
  | sync =>
    right
    left
    exact ⟨rfl, rfl, rfl⟩
  | swap =>
    cases event.hasDustLegs precision with
    | true =>
      left
      exact ⟨rfl, rfl, rfl⟩
    | false =>
      right
      right
      exact ⟨rfl, rfl, rfl⟩

theorem isDust_iff :
    event.isDust precision = true ↔ event.isTrade precision = false ∧ event.isSnapshot = false := by
  rcases event.kind_cases precision with ⟨hdust, hsnapshot, htrade⟩ | ⟨hdust, hsnapshot, _⟩ | ⟨hdust, _, htrade⟩
  · simp [hdust, hsnapshot, htrade]
  · simp [hdust, hsnapshot]
  · simp [hdust, htrade]

theorem isTrade_iff :
    event.isTrade precision = true ↔ event.swapType = .swap ∧ event.hasDustLegs precision = false := by
  simp [isTrade]

theorem isSnapshot_iff : event.isSnapshot = true ↔ event.swapType = .sync := by
  simp [isSnapshot]

theorem plan_of_isDust (h : event.isDust precision = true) (previous : Option SwapState) :
    event.plan precision previous = .ok .skip := by
  have hswap : event.swapType = .swap := by
    unfold isDust at h
    rw [Bool.and_eq_true, beq_iff_eq] at h
    exact h.1
  unfold plan
  cases previous with
  | none =>
    dsimp only
    rw [if_pos h]
  | some state =>
    dsimp only
    rw [hswap]
    cases state.swapType with
    | swap => rfl
    | sync =>
      dsimp only
      rw [if_pos h]

theorem plan_of_isSnapshot (h : event.isSnapshot = true) (previous : Option SwapState) :
    event.plan precision previous = .ok (.put { previous.getD event with reserves := event.reserves }) := by
  rw [isSnapshot_iff] at h
  unfold plan isDust
  rw [h]
  cases previous <;> rfl

theorem plan_of_isTrade (h : event.isTrade precision = true) (previous : Option SwapState) :
    event.plan precision previous = .ok (
      match previous with
      | none => .put event
      | some state =>
        if state.swapType = .swap then .skip else .replace { event with reserves := state.reserves }) := by
  rw [isTrade_iff] at h
  obtain ⟨hswap, hlegs⟩ := h
  have hdust : ¬event.isDust precision = true := by
    unfold isDust
    rw [hlegs, Bool.and_false]
    exact Bool.false_ne_true
  unfold plan
  cases previous with
  | none =>
    dsimp only
    rw [if_neg hdust]
  | some state =>
    dsimp only
    rw [hswap]
    cases state.swapType with
    | swap => rfl
    | sync =>
      dsimp only
      rw [if_neg hdust]
      rfl

theorem key_of_plan {previous : Option SwapState} {w : Write SwapState}
    (h : event.plan precision previous = .ok w) (hkey : ∀ state ∈ previous, state.key = event.key) :
    ∀ r, w.written? = some r → r.key = event.key := by
  intro r hr
  rcases event.kind_cases precision with ⟨hdust, _, _⟩ | ⟨_, hsnapshot, _⟩ | ⟨_, _, htrade⟩
  · rw [plan_of_isDust hdust, Except.ok.injEq] at h
    rw [← h] at hr
    cases hr
  · rw [plan_of_isSnapshot hsnapshot, Except.ok.injEq] at h
    rw [← h] at hr
    cases hr
    cases previous with
    | none => rfl
    | some state => exact hkey state rfl
  · rw [plan_of_isTrade htrade, Except.ok.injEq] at h
    rw [← h] at hr
    cases previous with
    | none =>
      cases hr
      rfl
    | some state =>
      dsimp only at hr
      split at hr
      · cases hr
      · cases hr
        rfl

end kinds

section history

variable {precision : UInt8} {past : List SwapState} {event : SwapState}

theorem leading?_append :
    leading? precision (past ++ [event]) =
      ((past.find? (isTrade precision)).or (if event.isTrade precision then some event else none)).or
        ((past.find? isSnapshot).or (if event.isSnapshot then some event else none)) := by
  unfold leading?
  rw [List.find?_append, List.find?_append, List.find?_singleton, List.find?_singleton]

theorem latestReserves?_append :
    latestReserves? (past ++ [event]) =
      if event.isSnapshot then some event.reserves else latestReserves? past := by
  unfold latestReserves?
  rw [List.reverse_concat, List.find?_cons]
  cases event.isSnapshot <;> rfl

theorem leading?_cases (precision : UInt8) (past : List SwapState) :
    (past.find? (isTrade precision) = none ∧ past.find? isSnapshot = none ∧ latestReserves? past = none) ∨
    (∃ trade, past.find? (isTrade precision) = some trade ∧ trade.swapType = .swap) ∨
    (∃ snapshot reserves, past.find? (isTrade precision) = none ∧ past.find? isSnapshot = some snapshot ∧
      snapshot.swapType = .sync ∧ latestReserves? past = some reserves) := by
  cases htrade : past.find? (isTrade precision) with
  | some trade =>
    right
    left
    have hkind := List.find?_some htrade
    exact ⟨trade, rfl, (isTrade_iff.1 hkind).1⟩
  | none =>
    cases hsnapshot : past.find? isSnapshot with
    | none =>
      left
      refine ⟨rfl, rfl, ?_⟩
      unfold latestReserves?
      rw [Option.map_eq_none_iff, List.find?_eq_none]
      intro x hx
      exact List.find?_eq_none.1 hsnapshot x (List.mem_reverse.1 hx)
    | some snapshot =>
      right
      right
      have hkind := List.find?_some hsnapshot
      have hlatest : (past.reverse.find? isSnapshot).isSome := by
        rw [List.find?_isSome]
        exact ⟨snapshot, List.mem_reverse.2 (List.mem_of_find?_eq_some hsnapshot), hkind⟩
      obtain ⟨latest, hlatest⟩ := Option.isSome_iff_exists.1 hlatest
      refine ⟨snapshot, latest.reserves, rfl, rfl, isSnapshot_iff.1 hkind, ?_⟩
      unfold latestReserves?
      rw [hlatest, Option.map_some]

theorem plan_ofHistory? (precision : UInt8) (past : List SwapState) (event : SwapState) :
    ∃ w, event.rekey.plan precision (ofHistory? precision past) = .ok w ∧
      MemoryStore.leaves (ofHistory? precision past) w = ofHistory? precision (past ++ [event]) := by
  unfold ofHistory?
  rcases event.kind_cases precision with
    ⟨hdust, hsnapshot, htrade⟩ | ⟨_, hsnapshot, htrade⟩ | ⟨_, hsnapshot, htrade⟩
  · have hrekeyed : event.rekey.isDust precision = true := hdust
    refine ⟨_, plan_of_isDust hrekeyed _, ?_⟩
    rw [leading?_append, latestReserves?_append, hsnapshot, htrade]
    simp [leading?, MemoryStore.leaves]
  · have hrekeyed : event.rekey.isSnapshot = true := hsnapshot
    refine ⟨_, plan_of_isSnapshot hrekeyed _, ?_⟩
    rw [leading?_append, latestReserves?_append, hsnapshot, htrade]
    unfold leading?
    rcases leading?_cases precision past with
      ⟨hnone, hnone', _⟩ | ⟨trade, hled, _⟩ | ⟨snapshot, _, hnone, hled, _⟩
    · rw [hnone, hnone']
      rfl
    · rw [hled]
      rfl
    · rw [hnone, hled]
      rfl
  -- What a trade does depends on who leads: an earlier trade stays, a snapshot gives way to it.
  · have hrekeyed : event.rekey.isTrade precision = true := htrade
    refine ⟨_, plan_of_isTrade hrekeyed _, ?_⟩
    rw [leading?_append, latestReserves?_append, hsnapshot, htrade]
    unfold leading?
    rcases leading?_cases precision past with
      ⟨hnone, hnone', hlatest⟩ | ⟨trade, hled, hswap⟩ | ⟨snapshot, reserves, hnone, hled, hsync, hlatest⟩
    · rw [hnone, hnone', hlatest]
      rfl
    · rw [hled]
      simp [rekey, hswap, MemoryStore.leaves]
    · rw [hnone, hled, hlatest]
      simp [rekey, hsync, MemoryStore.leaves]

end history

theorem ofHistory?_eq_none_iff {precision : UInt8} {events : List SwapState} :
    ofHistory? precision events = none ↔ ∀ event ∈ events, event.isDust precision = true := by
  unfold ofHistory? leading?
  rw [Option.map_eq_none_iff, Option.or_eq_none_iff, List.find?_eq_none, List.find?_eq_none]
  simp only [isDust_iff, Bool.not_eq_true]
  constructor
  · rintro ⟨htrade, hsnapshot⟩ event hmem
    exact ⟨htrade event hmem, hsnapshot event hmem⟩
  · intro hdust
    exact ⟨fun event hmem => (hdust event hmem).1, fun event hmem => (hdust event hmem).2⟩

theorem hasDustLegs_ofHistory? {precision : UInt8} {events : List SwapState} {state : SwapState}
    (h : ofHistory? precision events = some state) (hswap : state.swapType = .swap) :
    state.hasDustLegs precision = false := by
  unfold ofHistory? leading? at h
  obtain ⟨event, hled, rfl⟩ := Option.map_eq_some_iff.1 h
  rcases leading?_cases precision events with
    ⟨hnone, hnone', _⟩ | ⟨trade, htrade, _⟩ | ⟨snapshot, _, hnone, hsnapshot, hsync, _⟩
  · rw [hnone, hnone'] at hled
    cases hled
  · rw [htrade] at hled
    cases hled
    exact (isTrade_iff.1 (List.find?_some htrade)).2
  · rw [hnone, hsnapshot] at hled
    cases hled
    exact absurd (hsync.symm.trans hswap) (by decide)

end SwapState

namespace Reconciler

def eventsOf (key : SwapKey) (events : List SwapState) : List SwapState :=
  events.filter fun event => SwapKey.derive event.txHash event.pair = key

structure Reflects (r : Reconciler) (past : List SwapState) : Prop where
  consistent : r.swaps.store.Consistent
  find?_eq : ∀ key : SwapKey,
    r.swaps.store.find? (RecordKey.encode key) = SwapState.ofHistory? r.precision (eventsOf key past)

theorem eventsOf_append (key : SwapKey) (past : List SwapState) (event : SwapState) :
    eventsOf key (past ++ [event]) =
      if event.rekey.key = key then eventsOf key past ++ [event] else eventsOf key past := by
  have hkey : event.rekey.key = SwapKey.derive event.txHash event.pair := rfl
  unfold eventsOf
  rw [List.filter_append, List.filter_cons, List.filter_nil, hkey]
  split
  · next h => rw [if_pos (of_decide_eq_true h)]
  · next h => rw [if_neg (of_decide_eq_false (eq_false_of_ne_true h)), List.append_nil]

theorem precision_deliverSwap (r : Reconciler) (event : SwapState) :
    (r.deliverSwap event).2.precision = r.precision := rfl

theorem precision_deliverSwaps (r : Reconciler) (events : List SwapState) :
    (r.deliverSwaps events).precision = r.precision := by
  induction events generalizing r with
  | nil => rfl
  | cons event events ih => exact ih (r.deliverSwap event).2

theorem store_deliverSwap (r : Reconciler) (event : SwapState) :
    (r.deliverSwap event).2.swaps.store =
      (r.swaps.store.merge event.rekey.key (event.rekey.plan r.precision)).2 :=
  (r.swaps.merge_eq event.rekey.key (event.rekey.plan r.precision)).2

theorem Reflects.deliverSwap {r : Reconciler} {past : List SwapState} (h : r.Reflects past) (event : SwapState) :
    (r.deliverSwap event).2.Reflects (past ++ [event]) := by
  constructor
  · rw [store_deliverSwap]
    exact h.consistent.merge _ _
  · intro key
    rw [store_deliverSwap, precision_deliverSwap, eventsOf_append]
    by_cases hown : event.rekey.key = key
    · obtain ⟨w, hplan, hleaves⟩ := SwapState.plan_ofHistory? r.precision (eventsOf key past) event
      rw [← h.find?_eq, ← hown] at hplan
      have hwritten : ∀ x, w.written? = some x → keyText x = RecordKey.encode event.rekey.key := by
        intro x hx
        apply congrArg RecordKey.encode
        apply SwapState.key_of_plan hplan _ x hx
        intro state hstate
        exact RecordKey.encode_inj (h.consistent.key_of_find? hstate)
      rw [if_pos hown, ← hleaves, ← hown, MemoryStore.find?_merge_self hplan hwritten, h.find?_eq]
    · have hne : RecordKey.encode key ≠ RecordKey.encode event.rekey.key := by
        intro heq
        exact hown (RecordKey.encode_inj heq).symm
      rw [if_neg hown, MemoryStore.find?_merge_of_ne _ _ hne]
      exact h.find?_eq key

theorem Reflects.deliverSwaps {r : Reconciler} {past : List SwapState} (h : r.Reflects past)
    (events : List SwapState) : (r.deliverSwaps events).Reflects (past ++ events) := by
  induction events generalizing r past with
  | nil =>
    rw [List.append_nil]
    exact h
  | cons event events ih =>
    have hrest := ih (h.deliverSwap event)
    rw [List.append_assoc] at hrest
    exact hrest

/--
Whatever is delivered to an empty store, and in whatever order, the state of each swap is the one that its own
events lead to, and no trade is stored that is dust.
-/
theorem lookup_deliverSwaps (burns : Listing BurnEntry) (cache : Option (Cache SwapState)) (precision : UInt8)
    (events : List SwapState) :
    let store := ((⟨burns, ⟨.empty, cache⟩, precision⟩ : Reconciler).deliverSwaps events).swaps.store
    (∀ key : SwapKey,
      RecordStore.lookup store key = .ok (SwapState.ofHistory? precision (eventsOf key events)) ∧
      (RecordStore.lookup store key = .ok none ↔ ∀ event ∈ eventsOf key events, event.isDust precision = true)) ∧
    ∀ key state, store.find? key = some state → state.swapType = .swap →
      state.hasDustLegs precision = false := by
  have hstart : (⟨burns, ⟨.empty, cache⟩, precision⟩ : Reconciler).Reflects [] := by
    constructor
    · exact MemoryStore.consistent_empty
    · intro key
      rfl
  have h := hstart.deliverSwaps events
  have hprecision := precision_deliverSwaps ⟨burns, ⟨.empty, cache⟩, precision⟩ events
  intro store
  have hlookup : ∀ key : SwapKey,
      RecordStore.lookup store key = .ok (SwapState.ofHistory? precision (eventsOf key events)) := by
    intro key
    have hfind := h.find?_eq key
    rw [hprecision] at hfind
    exact congrArg Except.ok hfind
  constructor
  · intro key
    refine ⟨hlookup key, ?_⟩
    rw [hlookup, Except.ok.injEq, SwapState.ofHistory?_eq_none_iff]
  · intro key state hstate hswap
    rw [← h.consistent.key_of_find? hstate] at hstate
    have hfind := Except.ok.inj (hlookup state.key)
    exact SwapState.hasDustLegs_ofHistory? (hfind.symm.trans hstate) hswap

end Reconciler

end ChainIndex
