import ChainIndex.Proofs.Reconcile.BurnAccounts
import ChainIndex.Proofs.Reconcile.SwapOutcomes
import ChainIndex.Proofs.Store.Ordinals
import ChainIndex.Record.Entry

/-!
This module contains the proof that events move nothing that is stored, with one exception: a trade that takes the
place of a snapshot brings its own ordinal along. That happens at most once to a swap.
-/

namespace ChainIndex

inductive ChainEvent where
  | burn (report : BurnEntry)
  | swap (event : SwapState)

namespace Reconciler

def deliver (r : Reconciler) : ChainEvent → Reconciler
  | .burn report => (r.deliverBurn report).2
  | .swap event => (r.deliverSwap event).2

def deliverAll (r : Reconciler) (events : List ChainEvent) : Reconciler :=
  events.foldl deliver r

def transplanted? (r : Reconciler) : ChainEvent → Option SwapKey
  | .burn _ => none
  | .swap event =>
    match (r.deliverSwap event).1 with
    | .ok ⟨_, _, .transplanted⟩ => some (.derive event.txHash event.pair)
    | _ => none

def transplanted (r : Reconciler) : List ChainEvent → List SwapKey
  | [] => []
  | event :: events => (r.transplanted? event).toList ++ (r.deliver event).transplanted events

structure Consistent (r : Reconciler) : Prop where
  burns : r.burns.store.Consistent
  swaps : r.swaps.store.Consistent

variable {r : Reconciler}

theorem Consistent.deliver (h : r.Consistent) (event : ChainEvent) : (r.deliver event).Consistent := by
  cases event with
  | burn report => exact ⟨consistent_deliverBurn h.burns report, h.swaps⟩
  | swap event => exact ⟨h.burns, consistent_deliverSwap h.swaps event⟩

theorem Consistent.deliverAll (h : r.Consistent) (events : List ChainEvent) : (r.deliverAll events).Consistent := by
  induction events generalizing r with
  | nil => exact h
  | cons event events ih => exact ih (h.deliver event)

theorem stored?_deliver (h : r.Consistent) {block : UInt64} {x : BurnEntry} (hx : r.stored? block = some x)
    (event : ChainEvent) : ∃ y, (r.deliver event).stored? block = some y ∧ y.ordinal = x.ordinal := by
  cases event with
  | swap event => exact ⟨x, hx, rfl⟩
  | burn report =>
    by_cases hblock : block = report.blockNumber
    · subst hblock
      have heffect := effect_deliverBurn h.burns report
      unfold Reconciler.deliver
      dsimp only
      generalize r.deliverBurn report = result at heffect ⊢
      cases heffect with
      | inserted hnone _ =>
        rw [hnone] at hx
        cases hx
      | alreadyApplied _ _ => exact ⟨x, hx, rfl⟩
      | rejected _ _ _ => exact ⟨x, hx, rfl⟩
      | merged hentry _ _ hstored =>
        rw [hentry] at hx
        cases hx
        exact ⟨_, hstored, rfl⟩
    · refine ⟨x, ?_, rfl⟩
      exact (stored?_deliverBurn_of_ne r hblock).trans hx

theorem state?_deliver (h : r.Consistent) {key : SwapKey} {x : SwapState} (hx : r.state? key = some x)
    (event : ChainEvent) :
    ∃ y, (r.deliver event).state? key = some y ∧
      (r.transplanted? event = some key ∧ x.swapType = .sync ∧ y.swapType = .swap ∨
        r.transplanted? event ≠ some key ∧ y.swapType = x.swapType ∧ y.ordinal = x.ordinal) := by
  cases event with
  | burn report =>
    refine ⟨x, hx, ?_⟩
    right
    exact ⟨nofun, rfl, rfl⟩
  | swap event =>
    unfold Reconciler.deliver transplanted?
    dsimp only
    by_cases hown : key = event.rekey.key
    · subst hown
      obtain ⟨outcome, hanswer, heffect⟩ := swapEffect_deliverSwap h.swaps event
      rw [hanswer]
      rw [hx] at heffect
      generalize (r.deliverSwap event).2.state? event.rekey.key = after at heffect ⊢
      cases heffect with
      | dropped _ =>
        refine ⟨x, rfl, ?_⟩
        right
        exact ⟨nofun, rfl, rfl⟩
      | updated _ =>
        refine ⟨_, rfl, ?_⟩
        right
        exact ⟨nofun, rfl, rfl⟩
      | transplanted htrade hsync =>
        refine ⟨_, rfl, ?_⟩
        left
        exact ⟨rfl, hsync, (SwapState.isTrade_iff.1 htrade).1⟩
      | known _ _ =>
        refine ⟨x, rfl, ?_⟩
        right
        exact ⟨nofun, rfl, rfl⟩
    · refine ⟨x, (r.state?_deliverSwap_of_ne hown).trans hx, ?_⟩
      right
      refine ⟨?_, rfl, rfl⟩
      split
      · rw [ne_eq, Option.some.injEq]
        exact Ne.symm hown
      · nofun

theorem state?_of_transplanted? (h : r.Consistent) {key : SwapKey} {event : ChainEvent}
    (hkey : r.transplanted? event = some key) : ∃ y, (r.deliver event).state? key = some y ∧ y.swapType = .swap := by
  cases event with
  | burn report => cases hkey
  | swap event =>
    obtain ⟨outcome, hanswer, heffect⟩ := swapEffect_deliverSwap h.swaps event
    unfold transplanted? at hkey
    dsimp only at hkey
    rw [hanswer] at hkey
    unfold Reconciler.deliver
    dsimp only
    generalize r.state? event.rekey.key = before at heffect
    generalize hafter : (r.deliverSwap event).2.state? event.rekey.key = after at heffect
    cases heffect with
    | transplanted htrade _ =>
      cases hkey
      exact ⟨_, hafter, (SwapState.isTrade_iff.1 htrade).1⟩
    | dropped _ => cases hkey
    | inserted _ => cases hkey
    | updated _ => cases hkey
    | known _ _ => cases hkey

theorem transplanted?_of_isSnapshot (h : r.Consistent) {event : SwapState} (hsnapshot : event.isSnapshot = true) :
    r.transplanted? (.swap event) = none := by
  obtain ⟨outcome, hanswer, heffect⟩ := swapEffect_deliverSwap h.swaps event
  unfold transplanted?
  dsimp only
  rw [hanswer]
  generalize r.state? event.rekey.key = before at heffect
  generalize (r.deliverSwap event).2.state? event.rekey.key = after at heffect
  cases heffect with
  | transplanted htrade _ =>
    rw [SwapState.isSnapshot_iff] at hsnapshot
    rw [SwapState.isTrade_iff, hsnapshot] at htrade
    cases htrade.1
  | dropped _ => rfl
  | inserted _ => rfl
  | updated _ => rfl
  | known _ _ => rfl

theorem stored?_deliverAll (h : r.Consistent) {block : UInt64} {x : BurnEntry} (hx : r.stored? block = some x)
    (events : List ChainEvent) : ∃ y, (r.deliverAll events).stored? block = some y ∧ y.ordinal = x.ordinal := by
  induction events generalizing r x with
  | nil => exact ⟨x, hx, rfl⟩
  | cons event events ih =>
    obtain ⟨y, hy, hyx⟩ := stored?_deliver h hx event
    obtain ⟨z, hz, hzy⟩ := ih (h.deliver event) hy
    exact ⟨z, hz, hzy.trans hyx⟩

theorem state?_deliverAll (h : r.Consistent) {key : SwapKey} {x : SwapState} (hx : r.state? key = some x)
    (events : List ChainEvent) :
    ∃ y, (r.deliverAll events).state? key = some y ∧ (key ∉ r.transplanted events → y.ordinal = x.ordinal) := by
  induction events generalizing r x with
  | nil => exact ⟨x, hx, fun _ => rfl⟩
  | cons event events ih =>
    obtain ⟨y, hy, hstep⟩ := state?_deliver h hx event
    obtain ⟨z, hz, hrest⟩ := ih (h.deliver event) hy
    refine ⟨z, hz, ?_⟩
    unfold transplanted
    rw [List.mem_append, not_or, Option.mem_toList]
    rintro ⟨hfirst, hlater⟩
    rcases hstep with ⟨hkey, _⟩ | ⟨_, _, hordinal⟩
    · exact absurd hkey hfirst
    · exact (hrest hlater).trans hordinal

theorem not_mem_transplanted (h : r.Consistent) {key : SwapKey} {x : SwapState} (hx : r.state? key = some x)
    (hswap : x.swapType = .swap) (events : List ChainEvent) : key ∉ r.transplanted events := by
  induction events generalizing r x with
  | nil => exact List.not_mem_nil
  | cons event events ih =>
    obtain ⟨y, hy, hstep⟩ := state?_deliver h hx event
    unfold transplanted
    rw [List.mem_append, not_or, Option.mem_toList]
    rcases hstep with ⟨_, hsync, _⟩ | ⟨hkey, htype, _⟩
    · rw [hswap] at hsync
      cases hsync
    · exact ⟨hkey, ih (h.deliver event) hy (htype.trans hswap)⟩

theorem nodup_transplanted (h : r.Consistent) (events : List ChainEvent) : (r.transplanted events).Nodup := by
  induction events generalizing r with
  | nil => exact List.nodup_nil
  | cons event events ih =>
    have hrest := ih (h.deliver event)
    unfold transplanted
    cases hkey : r.transplanted? event with
    | none => exact hrest
    | some key =>
      -- The state is a trade from then on, and no trade gives way.
      obtain ⟨y, hy, hswap⟩ := state?_of_transplanted? h hkey
      exact List.nodup_cons.2 ⟨not_mem_transplanted (h.deliver event) hy hswap events, hrest⟩

/--
A key that is stored stays stored, and only a merge that replaces its record outright can give it another ordinal.
Else its record has the ordinal that was written first and all else from what was written last. Events never move
the entry of a block, and the state of a swap only when a snapshot gives way to a trade, which happens once at most.
-/
theorem ordinal_assigned_once :
    (∀ (kind : RecordKind) (s : MemoryStore kind.Entry) (key : kind.EntryKey)
      (operations : List (Operation kind.Entry kind.EntryKey)),
      let s' := (RecordStore.performAll s operations).2
      (∀ x, s.find? (RecordKey.encode key) = some x → ∃ y, s'.find? (RecordKey.encode key) = some y ∧
        (¬s.ReplacedBy key operations → Record.ordinal y = Record.ordinal x)) ∧
      (¬s.ReplacedBy key operations → s'.find? (RecordKey.encode key) =
        lastUnderFirst ((s.find? (RecordKey.encode key)).toList ++ s.recordsFor key operations))) ∧
    ∀ (burnCache : Option (Cache BurnEntry)) (swapCache : Option (Cache SwapState)) (precision : UInt8)
      (past later : List ChainEvent),
      let r := (⟨⟨.empty, burnCache⟩, ⟨.empty, swapCache⟩, precision⟩ : Reconciler).deliverAll past
      (∀ block x, r.stored? block = some x →
        ∃ y, (r.deliverAll later).stored? block = some y ∧ y.ordinal = x.ordinal) ∧
      (∀ key x, r.state? key = some x →
        ∃ y, (r.deliverAll later).state? key = some y ∧ (key ∉ r.transplanted later → y.ordinal = x.ordinal)) ∧
      (r.transplanted later).Nodup := by
  constructor
  · intro kind s key operations
    exact s.keeps_ordinal key operations
  · intro burnCache swapCache precision past later
    have hstart : (⟨⟨.empty, burnCache⟩, ⟨.empty, swapCache⟩, precision⟩ : Reconciler).Consistent :=
      ⟨MemoryStore.consistent_empty, MemoryStore.consistent_empty⟩
    have h := hstart.deliverAll past
    refine ⟨?_, ?_, nodup_transplanted h later⟩
    · intro block x hx
      exact stored?_deliverAll h hx later
    · intro key x hx
      exact state?_deliverAll h hx later

theorem ordinal_assigned_once_later_versions :
    (∃ y, (RecordStore.performAll Engine.tiedEpochs [.upsert { Engine.tiedEpoch 7 with ordinal := ⟨9⟩ }]).2.find?
      (RecordKey.encode (7 : UInt64)) = some y ∧ y.ordinal = ⟨5⟩) ∧
    ∃ y, (placeheld.deliverAll [.swap secondSnapshot]).state? firstSnapshot.rekey.key = some y ∧ y.ordinal = ⟨10⟩ := by
  obtain ⟨hwrites, hevents⟩ := ordinal_assigned_once
  constructor
  · have hfind : Engine.tiedEpochs.find? (RecordKey.encode (7 : UInt64)) = some (Engine.tiedEpoch 7) := by
      decide +kernel
    have hkept : ¬Engine.tiedEpochs.ReplacedBy (7 : UInt64) [.upsert { Engine.tiedEpoch 7 with ordinal := ⟨9⟩ }] := by
      rintro (⟨_, r, hreplace⟩ | hrest)
      · cases hreplace
      · exact hrest
    obtain ⟨y, hy, hordinal⟩ := (hwrites .epoch Engine.tiedEpochs (7 : UInt64)
      [.upsert { Engine.tiedEpoch 7 with ordinal := ⟨9⟩ }]).1 _ hfind
    exact ⟨y, hy, hordinal hkept⟩
  · have hempty : (create 6 none).Consistent := ⟨MemoryStore.consistent_empty, MemoryStore.consistent_empty⟩
    have h : placeheld.Consistent := hempty.deliver (.swap firstSnapshot)
    have hsnapshot : secondSnapshot.isSnapshot = true := rfl
    have hnone := transplanted?_of_isSnapshot h hsnapshot
    have hkept : firstSnapshot.rekey.key ∉ placeheld.transplanted [.swap secondSnapshot] := by
      unfold transplanted
      rw [hnone]
      exact List.not_mem_nil
    obtain ⟨_, hswaps, _⟩ := hevents none none 6 [.swap firstSnapshot] [.swap secondSnapshot]
    obtain ⟨y, hy, hordinal⟩ := hswaps _ _ state?_placeheld
    exact ⟨y, hy, hordinal hkept⟩

end Reconciler

end ChainIndex
