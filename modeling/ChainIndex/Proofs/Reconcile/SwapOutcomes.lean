import ChainIndex.Proofs.Reconcile.SwapRedelivery

/-!
This module contains the proof that the answer to an event of a swap is true of the state before and after it,
although it is put together from what has been written and not from the decision that led there.
-/

namespace ChainIndex

open Cache (keyText)

inductive SwapEffect (precision : UInt8) (event : SwapState) :
    Option SwapState → Option SwapState → SwapOutcome → Prop where
  | dropped {before : Option SwapState} (hdust : event.isDust precision = true) :
    SwapEffect precision event before before ⟨false, none, .dustDropped⟩
  | inserted (hdust : event.isDust precision = false) :
    SwapEffect precision event none (some event.rekey) ⟨true, none, .inserted⟩
  | updated {state : SwapState} (hsnapshot : event.isSnapshot = true) :
    SwapEffect precision event (some state) (some { state with reserves := event.reserves })
      ⟨false, none, .reservesUpdated⟩
  | transplanted {state : SwapState} (htrade : event.isTrade precision = true) (hsync : state.swapType = .sync) :
    SwapEffect precision event (some state) (some { event.rekey with reserves := state.reserves })
      ⟨true, some state.reserves, .transplanted⟩
  | known {state : SwapState} (htrade : event.isTrade precision = true) (hswap : state.swapType = .swap) :
    SwapEffect precision event (some state) (some state) ⟨false, none, .alreadyKnown⟩

/--
The answer to an event, as the states before and after it show it to be.
-/
structure SwapOutcome.Truthful (precision : UInt8) (event : SwapState) (before after : Option SwapState)
    (outcome : SwapOutcome) : Prop where
  accepted_iff : outcome.accepted = true ↔
    outcome.disposition = .inserted ∨ outcome.disposition = .transplanted
  accepted : outcome.accepted = true → after = some { event with
    key := .derive event.txHash event.pair
    reserves := outcome.correctedReserves.getD event.reserves }
  ordinal : outcome.disposition = .inserted ∨ outcome.disposition = .transplanted →
    after.map SwapState.ordinal = some event.ordinal
  inserted_iff : outcome.disposition = .inserted ↔ before = none ∧
    (event.swapType = .sync ∨ event.swapType = .swap ∧ event.hasDustLegs precision = false)
  transplanted_iff : outcome.disposition = .transplanted ↔ before.map SwapState.swapType = some .sync ∧
    event.swapType = .swap ∧ event.hasDustLegs precision = false
  corrected_iff : outcome.correctedReserves.isSome = true ↔ outcome.disposition = .transplanted
  corrected : ∀ reserves, outcome.correctedReserves = some reserves →
    before.map SwapState.reserves = some reserves ∧ after.map SwapState.reserves = some reserves
  updated_iff : outcome.disposition = .reservesUpdated ↔ before.isSome = true ∧ event.swapType = .sync
  updated : outcome.disposition = .reservesUpdated →
    after = before.map fun state => { state with reserves := event.reserves }
  dropped_iff : outcome.disposition = .dustDropped ↔
    event.swapType = .swap ∧ event.hasDustLegs precision = true
  known_iff : outcome.disposition = .alreadyKnown ↔ before.map SwapState.swapType = some .swap ∧
    event.swapType = .swap ∧ event.hasDustLegs precision = false
  unchanged : outcome.disposition = .dustDropped ∨ outcome.disposition = .alreadyKnown → after = before

namespace SwapEffect

variable {precision : UInt8} {event : SwapState} {before after : Option SwapState} {outcome : SwapOutcome}

theorem truthful (h : SwapEffect precision event before after outcome) :
    outcome.Truthful precision event before after := by
  cases h with
  | dropped hdust =>
    have hkind : event.swapType = .swap ∧ event.hasDustLegs precision = true := by
      simpa [SwapState.isDust] using hdust
    constructor <;> simp [hkind]
  | inserted hdust =>
    rcases event.kind_cases precision with ⟨hdust', _⟩ | ⟨_, hsnapshot, _⟩ | ⟨_, _, htrade⟩
    · rw [hdust] at hdust'
      cases hdust'
    · have hkind := SwapState.isSnapshot_iff.1 hsnapshot
      constructor <;> simp [hkind, SwapState.rekey]
    · have hkind := SwapState.isTrade_iff.1 htrade
      constructor <;> simp [hkind, SwapState.rekey]
  | updated hsnapshot =>
    have hkind := SwapState.isSnapshot_iff.1 hsnapshot
    constructor <;> simp [hkind]
  | transplanted htrade hsync =>
    have hkind := SwapState.isTrade_iff.1 htrade
    constructor <;> simp [hkind, hsync, SwapState.rekey]
  | known htrade hswap =>
    have hkind := SwapState.isTrade_iff.1 htrade
    constructor <;> simp [hkind, hswap]

end SwapEffect

theorem SwapOutcome.ofApplied_carried (precision : UInt8) (event : SwapState) (previous : Option SwapState)
    (w : Write SwapState) :
    ofApplied precision event ⟨previous, MemoryStore.carried previous w⟩ = ofApplied precision event ⟨previous, w⟩ := by
  cases previous <;> cases w <;> rfl

namespace Reconciler

def state? (r : Reconciler) (key : SwapKey) : Option SwapState :=
  r.swaps.store.find? (RecordKey.encode key)

variable {r : Reconciler} {event : SwapState}

theorem key_of_state? (h : r.swaps.store.Consistent) {key : SwapKey} {state : SwapState}
    (hstate : r.state? key = some state) : state.key = key :=
  RecordKey.encode_inj (h.key_of_find? hstate)

theorem consistent_deliverSwap (h : r.swaps.store.Consistent) (event : SwapState) :
    (r.deliverSwap event).2.swaps.store.Consistent := by
  rw [store_deliverSwap]
  apply h.merge

theorem state?_deliverSwap_of_ne (r : Reconciler) {event : SwapState} {key : SwapKey} (h : key ≠ event.rekey.key) :
    (r.deliverSwap event).2.state? key = r.state? key := by
  have hne : RecordKey.encode key ≠ RecordKey.encode event.rekey.key := by
    intro heq
    exact h (RecordKey.encode_inj heq)
  unfold state?
  rw [store_deliverSwap, MemoryStore.find?_merge_of_ne _ _ hne]

theorem deliverSwap_of_plan (h : r.swaps.store.Consistent) {w : Write SwapState}
    (hplan : event.rekey.plan r.precision (r.state? event.rekey.key) = .ok w) :
    (r.deliverSwap event).1 =
        .ok (SwapOutcome.ofApplied r.precision event.rekey ⟨r.state? event.rekey.key, w⟩) ∧
      (r.deliverSwap event).2.state? event.rekey.key = MemoryStore.leaves (r.state? event.rekey.key) w := by
  have hwritten : ∀ x, w.written? = some x → keyText x = RecordKey.encode event.rekey.key := by
    intro x hx
    apply congrArg RecordKey.encode
    apply SwapState.key_of_plan hplan _ x hx
    intro state hstate
    exact key_of_state? h hstate
  constructor
  · have hanswer := (r.swaps.merge_eq event.rekey.key (event.rekey.plan r.precision)).1
    rw [MemoryStore.answer_merge_self hplan hwritten] at hanswer
    unfold deliverSwap
    dsimp only
    rw [hanswer, Except.map, SwapOutcome.ofApplied_carried]
    rfl
  · have hstate := MemoryStore.find?_merge_self hplan hwritten
    rw [← store_deliverSwap] at hstate
    exact hstate

theorem swapEffect_deliverSwap (h : r.swaps.store.Consistent) (event : SwapState) :
    ∃ outcome, (r.deliverSwap event).1 = .ok outcome ∧
      SwapEffect r.precision event (r.state? event.rekey.key)
        ((r.deliverSwap event).2.state? event.rekey.key) outcome := by
  rcases event.kind_cases r.precision with ⟨hdust, _⟩ | ⟨hdust, hsnapshot, _⟩ | ⟨hdust, _, htrade⟩
  · have hrekeyed : event.rekey.isDust r.precision = true := hdust
    obtain ⟨hanswer, hstate⟩ := deliverSwap_of_plan h (SwapState.plan_of_isDust hrekeyed _)
    refine ⟨_, hanswer, ?_⟩
    rw [hstate]
    cases r.state? event.rekey.key with
    | none => exact .dropped hdust
    | some state =>
      unfold SwapOutcome.ofApplied
      rw [hrekeyed]
      exact .dropped hdust
  · have hrekeyed : event.rekey.isSnapshot = true := hsnapshot
    obtain ⟨hanswer, hstate⟩ := deliverSwap_of_plan h (SwapState.plan_of_isSnapshot hrekeyed _)
    refine ⟨_, hanswer, ?_⟩
    rw [hstate]
    cases r.state? event.rekey.key with
    | none => exact .inserted hdust
    | some state => exact .updated hsnapshot
  -- A trade is held against what is stored: it takes the place of a snapshot but not of another trade.
  · have hrekeyed : event.rekey.isTrade r.precision = true := htrade
    obtain ⟨hanswer, hstate⟩ := deliverSwap_of_plan h (SwapState.plan_of_isTrade hrekeyed _)
    refine ⟨_, hanswer, ?_⟩
    rw [hstate]
    cases r.state? event.rekey.key with
    | none => exact .inserted hdust
    | some state =>
      cases hkind : state.swapType with
      | sync =>
        dsimp only
        rw [hkind]
        exact .transplanted htrade hkind
      | swap =>
        have hkept : event.rekey.isDust r.precision = false := hdust
        dsimp only
        rw [hkind, if_pos rfl]
        unfold SwapOutcome.ofApplied
        rw [hkept]
        exact .known htrade hkind

/--
Every event of a swap is answered, and the answer is true of the states that are stored for the swap before and
after it.
-/
theorem truthful_deliverSwap {r : Reconciler} (h : r.swaps.store.Reachable) (event : SwapState) :
    ∃ before after outcome,
      RecordStore.lookup r.swaps.store (SwapKey.derive event.txHash event.pair) = .ok before ∧
      (r.deliverSwap event).1 = .ok outcome ∧
      RecordStore.lookup (r.deliverSwap event).2.swaps.store (SwapKey.derive event.txHash event.pair) = .ok after ∧
      outcome.Truthful r.precision event before after := by
  obtain ⟨outcome, hanswer, heffect⟩ := swapEffect_deliverSwap h.consistent event
  exact ⟨_, _, outcome, rfl, hanswer, rfl, heffect.truthful⟩

def placeheld : Reconciler :=
  ((create 6 none).deliverSwap firstSnapshot).2

theorem reachable_placeheld : placeheld.swaps.store.Reachable := by
  have hcreate : (create 6 none).swaps.store = .empty := rfl
  unfold placeheld
  rw [store_deliverSwap, hcreate]
  exact .merge .empty _ _

theorem state?_placeheld : placeheld.state? firstSnapshot.rekey.key = some firstSnapshot.rekey := by
  have hempty : (create 6 none).swaps.store.Consistent := MemoryStore.consistent_empty
  have hnone : (create 6 none).state? firstSnapshot.rekey.key = none := rfl
  obtain ⟨outcome, _, heffect⟩ := swapEffect_deliverSwap hempty firstSnapshot
  rw [hnone] at heffect
  unfold placeheld
  generalize ((create 6 none).deliverSwap firstSnapshot).2.state? firstSnapshot.rekey.key = after at heffect ⊢
  cases heffect with
  | dropped hdust => cases hdust
  | inserted _ => rfl

theorem truthful_deliverSwap_placeheld :
    placeheld.swaps.store.Reachable ∧
    ∃ outcome, (placeheld.deliverSwap (tradeAt 1 1)).1 = .ok outcome ∧
      outcome.disposition = .transplanted ∧ outcome.correctedReserves = some firstSnapshot.reserves ∧
      RecordStore.lookup (placeheld.deliverSwap (tradeAt 1 1)).2.swaps.store (tradeAt 1 1).rekey.key =
        .ok (some { (tradeAt 1 1).rekey with reserves := firstSnapshot.reserves }) := by
  refine ⟨reachable_placeheld, ?_⟩
  obtain ⟨before, after, outcome, hbefore, hanswer, hafter, h⟩ :=
    truthful_deliverSwap reachable_placeheld (tradeAt 1 1)
  have hsnapshot : before = some firstSnapshot.rekey := by
    have hfind := state?_placeheld
    exact (Except.ok.inj hbefore).symm.trans hfind
  have htrade : (tradeAt 1 1).hasDustLegs 6 = false := by decide +kernel
  have hprecision : placeheld.precision = 6 := by
    unfold placeheld
    rw [precision_deliverSwap]
    rfl
  have hdisposition : outcome.disposition = .transplanted := by
    rw [h.transplanted_iff, hsnapshot, hprecision]
    exact ⟨rfl, rfl, htrade⟩
  have haccepted : outcome.accepted = true := h.accepted_iff.2 (.inr hdisposition)
  have hsome : outcome.correctedReserves.isSome = true := h.corrected_iff.2 hdisposition
  obtain ⟨reserves, hreserves⟩ := Option.isSome_iff_exists.1 hsome
  have hcorrected := (h.corrected reserves hreserves).1
  rw [hsnapshot] at hcorrected
  have hstored := h.accepted haccepted
  rw [hreserves, ← Option.some.inj hcorrected] at hstored
  refine ⟨outcome, hanswer, hdisposition, ?_, ?_⟩
  · rw [hreserves]
    exact hcorrected.symm
  · exact hafter.trans (congrArg Except.ok hstored)

end Reconciler

end ChainIndex
