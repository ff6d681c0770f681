import ChainIndex.Proofs.Listing.Caching
import ChainIndex.Reconcile.Reconciler

/-!
This module contains the proof of when the top of the swap listing is answered from the cache as it would be
from the store. A trade may take the place of a snapshot with a higher ordinal. The state then leaves the
top of the listing, and a record takes its turn there that the cache does not have.
-/

namespace ChainIndex

open Cache (keyText)

theorem take_eq_take_iff_of_sublist {α : Type} {l m : List α} (h : l.Sublist m) (hm : m.Nodup) (n : Nat) :
    l.take n = m.take n ↔ ∀ x ∈ m.take n, x ∈ l := by
  constructor
  · intro heq x hx
    rw [← heq] at hx
    exact List.mem_of_mem_take hx
  · intro hall
    induction h generalizing n with
    | slnil => rfl
    | @cons l m x h ih =>
      cases n with
      | zero => simp
      | succ n =>
        have hx := h.subset (hall x List.mem_cons_self)
        exact absurd hx (List.nodup_cons.1 hm).1
    | @cons_cons l m x h ih =>
      cases n with
      | zero => simp
      | succ n =>
        rw [List.take_succ_cons, List.take_succ_cons, ih (List.nodup_cons.1 hm).2]
        intro y hy
        cases List.mem_cons.1 (hall y (List.mem_cons_of_mem x hy)) with
        | inl hyx =>
          rw [hyx] at hy
          exact absurd (List.mem_of_mem_take hy) (List.nodup_cons.1 hm).1
        | inr hy => exact hy

namespace Reconciler

def deliverSwaps (r : Reconciler) (events : List SwapState) : Reconciler :=
  events.foldl (fun r event => (r.deliverSwap event).2) r

/--
The event is a trade that takes the place of a snapshot with a higher ordinal.
-/
def lowers (r : Reconciler) (event : SwapState) : Bool :=
  match r.swaps.store.find? (RecordKey.encode event.rekey.key) with
  | some state =>
    event.swapType == .swap && state.swapType == .sync && !event.isDust r.precision &&
      event.ordinal < state.ordinal
  | none => false

def countLowering (r : Reconciler) : List SwapState → Nat
  | [] => 0
  | event :: events =>
    (if r.lowers event then 1 else 0) + (r.deliverSwap event).2.countLowering events

structure Lags (r : Reconciler) (capacity lag : Nat) : Prop where
  consistent : r.swaps.store.Consistent
  cached : ∃ c, r.swaps.cache = some c ∧ c.recentCapacity = capacity ∧ c.Follows r.swaps.store lag

theorem lags_create (precision : UInt8) (recordCapacity recentCapacity : Nat) :
    (create precision (some (recordCapacity, recentCapacity))).Lags recentCapacity 0 := by
  have hempty : (MemoryStore.empty : MemoryStore SwapState).Consistent := MemoryStore.consistent_empty
  have hswaps : (create precision (some (recordCapacity, recentCapacity))).swaps =
      (Engine.warm ⟨.empty, some (.empty recordCapacity recentCapacity)⟩).2 := rfl
  have hwarm := Engine.warm_eq (g := ⟨.empty, some (.empty recordCapacity recentCapacity)⟩) hempty
  constructor
  · rw [hswaps, hwarm]
    exact hempty
  · rw [hswaps, hwarm]
    exact ⟨_, rfl, rfl, Cache.Follows.warm hempty (.empty recordCapacity recentCapacity)⟩

theorem Lags.mono {r : Reconciler} {capacity lag lag' : Nat} (h : r.Lags capacity lag) (hlag : lag ≤ lag') :
    r.Lags capacity lag' := by
  obtain ⟨c, hc, hcapacity, hfollows⟩ := h.cached
  exact ⟨h.consistent, c, hc, hcapacity, hfollows.mono hlag⟩

theorem Lags.write {r : Reconciler} {capacity lag lag' : Nat} (h : r.Lags capacity lag) {r' : Reconciler}
    {x : SwapState} (hswaps : r'.swaps = r.swaps.write x)
    (hlag : lag + 1 = lag' ∨ lag = lag' ∧ ¬Sinks x r.swaps.store.records) : r'.Lags capacity lag' := by
  obtain ⟨c, hc, hcapacity, hfollows⟩ := h.cached
  constructor
  · rw [hswaps]
    exact h.consistent.overwrite x
  · rw [hswaps]
    unfold Engine.write
    rw [hc]
    refine ⟨_, rfl, ?_, hfollows.recordWritten h.consistent x hlag⟩
    rw [Cache.recentCapacity_recordWritten, hcapacity]

theorem plan_eq_replace {precision : UInt8} {event x : SwapState} {previous : Option SwapState}
    (h : event.plan precision previous = .ok (.replace x)) :
    ∃ state, previous = some state ∧ event.swapType = .swap ∧ state.swapType = .sync ∧
      event.isDust precision = false ∧ x = { event with reserves := state.reserves } := by
  unfold SwapState.plan at h
  split at h
  · rw [Except.ok.injEq] at h
    split at h <;> cases h
  · next state =>
    rw [Except.ok.injEq] at h
    split at h
    · cases h
    · next hevent hstate =>
      split at h
      · cases h
      · next hdust =>
        cases h
        exact ⟨state, rfl, hevent, hstate, eq_false_of_ne_true hdust, rfl⟩
    · cases h

theorem Lags.deliverSwap {r : Reconciler} {capacity lag : Nat} (h : r.Lags capacity lag) (event : SwapState) :
    (r.deliverSwap event).2.Lags capacity (lag + if r.lowers event then 1 else 0) := by
  have hswaps : (r.deliverSwap event).2.swaps =
      (r.swaps.merge event.rekey.key (event.rekey.plan r.precision)).2 := rfl
  rcases r.swaps.merge_cases event.rekey.key (event.rekey.plan r.precision) with
    hkept | ⟨x, _, hput⟩ | ⟨x, hx, hkey, hreplaced⟩
  · rw [hkept] at hswaps
    have hlags : (r.deliverSwap event).2.Lags capacity lag := by
      constructor
      · rw [hswaps]
        exact h.consistent
      · rw [hswaps]
        exact h.cached
    exact hlags.mono (Nat.le_add_right _ _)
  · rw [hput] at hswaps
    have hsteady := r.swaps.store.steady_keepOrdinal x
    have hlags := h.write hswaps (.inr ⟨rfl, h.consistent.not_sinks_records hsteady⟩)
    exact hlags.mono (Nat.le_add_right _ _)
  -- The trade takes the place of a snapshot, and the cache loses ground if it stands lower.
  · rw [hreplaced] at hswaps
    apply h.write hswaps
    obtain ⟨state, hstate, hevent, hsync, hdust, hx⟩ := plan_eq_replace hx
    have hlowers : r.lowers event = decide (event.ordinal < state.ordinal) := by
      have hkept : event.isDust r.precision = false := hdust
      have htrade : event.swapType = .swap := hevent
      unfold lowers
      rw [hstate]
      dsimp only
      rw [hkept, htrade, hsync]
      rfl
    rw [hlowers]
    by_cases hlt : event.ordinal < state.ordinal
    · left
      rw [decide_eq_true hlt, if_pos rfl]
    · right
      rw [decide_eq_false hlt]
      refine ⟨rfl, ?_⟩
      rintro ⟨y, hy, hyx, hsinks⟩
      rw [h.consistent.mem_records_iff, hyx, hkey, hstate] at hy
      rw [ofRecord_lt_iff hyx.symm, ← Option.some.inj hy, hx] at hsinks
      exact hlt hsinks

theorem Lags.deliverSwaps {r : Reconciler} {capacity lag : Nat} (h : r.Lags capacity lag)
    (events : List SwapState) : (r.deliverSwaps events).Lags capacity (lag + r.countLowering events) := by
  induction events generalizing r lag with
  | nil => exact h
  | cons event events ih =>
    have hrest := ih (h.deliverSwap event)
    rw [Nat.add_assoc] at hrest
    exact hrest

def swapsAfter (precision : UInt8) (recordCapacity recentCapacity : Nat) (events : List SwapState) :
    Listing SwapState :=
  ((create precision (some (recordCapacity, recentCapacity))).deliverSwaps events).swaps

def countLoweringAfter (precision : UInt8) (recordCapacity recentCapacity : Nat) (events : List SwapState) : Nat :=
  (create precision (some (recordCapacity, recentCapacity))).countLowering events

/--
The top of the swap listing is answered with the right total and flags whatever has been delivered. It has
the right records exactly if the cache holds all of them or leaves the answer to the store. One lowering
trade does no harm to that, and more of them can only harm the last records that the cache has room for.
-/
theorem list_swaps_iff (precision : UInt8) (recordCapacity recentCapacity : Nat) (events : List SwapState)
    (count : Int32) (hcount : 0 < count.toInt) :
    let g := swapsAfter precision recordCapacity recentCapacity events
    let lowered := countLoweringAfter precision recordCapacity recentCapacity events
    ∃ (c : Cache SwapState) (p q : Page SwapState),
      g.cache = some c ∧ g.list .all none count = .ok p ∧
      (⟨g.store, none⟩ : Listing SwapState).list .all none count = .ok q ∧
      p.total = q.total ∧ p.isStart = q.isStart ∧ p.isEnd = q.isEnd ∧
      (p = q ↔ (count.toInt.natAbs < c.recent.length →
        ∀ x ∈ g.store.records.take count.toInt.natAbs, x ∈ c.recent)) ∧
      (lowered ≤ 1 ∨ count.toInt.natAbs + lowered ≤ recentCapacity → p = q) := by
  have h := (lags_create precision recordCapacity recentCapacity).deliverSwaps events
  rw [Nat.zero_add] at h
  have hs := h.consistent
  obtain ⟨c, hc, hcapacity, hfollows⟩ := h.cached
  dsimp only
  unfold swapsAfter countLoweringAfter
  generalize (create precision (some (recordCapacity, recentCapacity))).countLowering events = lag at hfollows
  generalize ((create precision (some (recordCapacity, recentCapacity))).deliverSwaps events).swaps = g at hs hc hfollows
  obtain ⟨s, cache⟩ := g
  dsimp only at hs hc hfollows ⊢
  subst hc
  obtain ⟨p, q, hp, hq, htotal, hstart, hend⟩ := Engine.exists_pages hfollows hs hcount
  have hiff := Engine.list_eq_uncached_iff hfollows hs count
  rw [hp, hq, Except.ok.injEq, take_eq_take_iff_of_sublist hfollows.sublist hs.ranked_records.nodup] at hiff
  refine ⟨c, p, q, rfl, hp, hq, htotal, hstart, hend, ?_, ?_⟩
  · rw [hiff]
    exact forall_prop_of_true hcount
  · intro hlag
    rw [hiff, ← take_eq_take_iff_of_sublist hfollows.sublist hs.ranked_records.nodup]
    intro _ hlt
    apply hfollows.take_eq_of_le
    have hbounded := hfollows.bounded
    omega

def eventAt (tx : UInt8) (swapType : SwapType) (amounts : TradeAmounts) (ordinal : UInt64) : SwapState where
  key := ⟨.zero⟩
  swapType := swapType
  pair := ⟨.zero⟩
  txHash := ⟨⟨tx :: List.replicate 31 0, rfl⟩⟩
  blockNumber := ordinal
  amounts := amounts
  reserves := .zero
  decimals := ⟨6, 6⟩
  timestamp := Engine.noon
  ordinal := ⟨ordinal⟩

def snapshotAt (tx : UInt8) (ordinal : UInt64) : SwapState :=
  eventAt tx .sync .zero ordinal

def tradeAt (tx : UInt8) (ordinal : UInt64) : SwapState :=
  eventAt tx .swap ⟨⟨5, by decide⟩, .zero, .zero, ⟨3, by decide⟩⟩ ordinal

def loweredTwice : List SwapState :=
  [snapshotAt 1 10, snapshotAt 2 9, snapshotAt 3 8, tradeAt 1 1, tradeAt 2 2]

theorem list_swaps_lowered_twice :
    ∃ p q : Page SwapState, (swapsAfter 6 8 2 loweredTwice).list .all none 1 = .ok p ∧
      (⟨(swapsAfter 6 8 2 loweredTwice).store, none⟩ : Listing SwapState).list .all none 1 = .ok q ∧ p ≠ q := by
  have hone : 0 < (1 : Int32).toInt := by decide
  obtain ⟨c, p, q, hc, hp, hq, _, _, _, hiff, _⟩ := list_swaps_iff 6 8 2 loweredTwice 1 hone
  refine ⟨p, q, hp, hq, ?_⟩
  intro heq
  have hordinals : (((swapsAfter 6 8 2 loweredTwice).cache.map fun c => c.recent.map Record.ordinal),
      ((swapsAfter 6 8 2 loweredTwice).store.records.take 1).map Record.ordinal) =
      ((some [⟨2⟩, ⟨1⟩] : Option (List Ordinal)), ([⟨8⟩] : List Ordinal)) := by decide +kernel
  obtain ⟨hrecent, htop⟩ := Prod.mk.inj hordinals
  rw [hc, Option.map_some, Option.some.injEq] at hrecent
  have hlen : (1 : Int32).toInt.natAbs < c.recent.length := by
    rw [← List.length_map Record.ordinal, hrecent]
    decide
  obtain ⟨x, hx, hordinal⟩ := List.mem_map.1 (htop ▸ List.mem_singleton_self (⟨8⟩ : Ordinal))
  have hmem := List.mem_map_of_mem (f := Record.ordinal) (hiff.1 heq hlen x hx)
  rw [hrecent, hordinal] at hmem
  revert hmem
  decide

end Reconciler

end ChainIndex
