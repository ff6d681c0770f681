import ChainIndex.Proofs.Reconcile.BurnAccounts
import ChainIndex.Proofs.Reconcile.SwapHistory
import ChainIndex.Proofs.Store.Frames
import ChainIndex.Record.Entry

/-!
This module contains the proof that writes are all or nothing. A write that is not carried out leaves the store
and the cache as they are, and one that is carried out touches the record of its own key alone.
-/

namespace ChainIndex

open Cache (keyText)
open MemoryStore (Wrote)

namespace Engine

variable {ρ κ : Type} [RecordKey κ] [Record ρ κ]

/--
What a merge can come to. It fails, or it has nothing to write, and the listing with its cache is what it was;
else the record that is answered with has been written.
-/
inductive Merged (g : Listing ρ) (key : κ) (plan : Planner ρ) :
    Except IndexError (Applied ρ) × Listing ρ → Prop where
  | failed {e : IndexError} (h : plan (g.store.find? (RecordKey.encode key)) = .error e) :
    Merged g key plan (.error e, g)
  | foreign {w : Write ρ} {x : ρ} (h : plan (g.store.find? (RecordKey.encode key)) = .ok w)
    (hx : w.written? = some x) (hkey : Record.key x ≠ key) :
    Merged g key plan (.error (.internal
      s!"merge for `{RecordKey.encode key}` tried to write `{RecordKey.encode (Record.key x)}`"), g)
  | skipped (h : plan (g.store.find? (RecordKey.encode key)) = .ok .skip) :
    Merged g key plan (.ok ⟨g.store.find? (RecordKey.encode key), .skip⟩, g)
  | put {x : ρ} {g' : Listing ρ} (h : plan (g.store.find? (RecordKey.encode key)) = .ok (.put x))
    (hkey : Record.key x = key)
    (hwrote : Wrote key (g.store.find? (RecordKey.encode key))
      (MemoryStore.keepOrdinal (g.store.find? (RecordKey.encode key)) x) g.store g'.store) :
    Merged g key plan (.ok ⟨g.store.find? (RecordKey.encode key),
      .put (MemoryStore.keepOrdinal (g.store.find? (RecordKey.encode key)) x)⟩, g')
  | replace {x : ρ} {g' : Listing ρ} (h : plan (g.store.find? (RecordKey.encode key)) = .ok (.replace x))
    (hkey : Record.key x = key)
    (hwrote : Wrote key (g.store.find? (RecordKey.encode key)) x g.store g'.store) :
    Merged g key plan (.ok ⟨g.store.find? (RecordKey.encode key), .replace x⟩, g')

theorem merged_merge {g : Listing ρ} (hs : g.store.Consistent) (key : κ) (plan : Planner ρ) :
    Merged g key plan (g.merge key plan) := by
  cases hplan : plan (g.store.find? (RecordKey.encode key)) with
  | error e =>
    rw [merge_of_error hplan]
    exact .failed hplan
  | ok w =>
    cases w with
    | skip =>
      rw [merge_of_skip hplan]
      exact .skipped hplan
    | put x =>
      by_cases hkey : Record.key x = key
      · have htext : keyText x = RecordKey.encode key := congrArg RecordKey.encode hkey
        have hstored := MemoryStore.keyText_keepOrdinal (g.store.find? (keyText x)) x
        rw [htext] at hstored
        rw [merge_of_put hplan htext, htext]
        exact .put hplan hkey (.overwrite hs hstored)
      · rw [merge_of_foreign hplan (MemoryStore.foreignKey?_of_ne rfl hkey)]
        exact .foreign hplan rfl hkey
    | replace x =>
      by_cases hkey : Record.key x = key
      · have htext : keyText x = RecordKey.encode key := congrArg RecordKey.encode hkey
        rw [merge_of_replace hplan htext, htext]
        exact .replace hplan hkey (.overwrite hs htext)
      · rw [merge_of_foreign hplan (MemoryStore.foreignKey?_of_ne rfl hkey)]
        exact .foreign hplan rfl hkey

theorem wrote_upsert {g : Listing ρ} (hs : g.store.Consistent) (r : ρ) :
    ∃ stored g', g.upsert r =
        (.ok (if (g.store.find? (keyText r)).isSome then .updated else .inserted, stored), g') ∧
      Wrote (Record.key r) (g.store.find? (keyText r)) stored g.store g'.store := by
  have hstored := MemoryStore.keyText_keepOrdinal (g.store.find? (keyText r)) r
  have hupsert : RecordStore.upsert g.store r = _ := g.store.upsert_eq r
  refine ⟨_, (g.upsert r).2, Prod.ext ?_ rfl, ?_⟩
  · unfold upsert
    rw [hupsert]
    rfl
  · rw [upsert_eq_write]
    exact Wrote.overwrite hs hstored

end Engine

theorem BurnEntry.plan_cases (report : BurnEntry) (previous : Option BurnEntry) :
    (∃ e, report.plan previous = .error e) ∨ report.plan previous = .ok .skip ∨
      report.plan previous = .ok (.put (previous.elim report (·.absorb report))) := by
  unfold plan
  cases previous with
  | none =>
    right
    right
    rfl
  | some entry =>
    dsimp only
    split
    · right
      left
      rfl
    · split
      · left
        exact ⟨_, rfl⟩
      · right
        right
        rfl

theorem BurnEntry.key_of_plan {report : BurnEntry} {previous : Option BurnEntry} {w : Write BurnEntry}
    (h : report.plan previous = .ok w) (hkey : ∀ entry ∈ previous, entry.blockNumber = report.blockNumber) :
    ∀ r, w.written? = some r → r.blockNumber = report.blockNumber := by
  intro r hr
  rcases report.plan_cases previous with ⟨e, herror⟩ | hskip | hput
  · rw [herror] at h
    cases h
  · rw [hskip] at h
    cases h
    cases hr
  · rw [hput] at h
    cases h
    cases hr
    cases previous with
    | none => rfl
    | some entry => exact hkey entry rfl

theorem SwapState.plan_cases (precision : UInt8) (event : SwapState) (previous : Option SwapState) :
    event.plan precision previous = .ok .skip ∨
    event.plan precision previous =
      .ok (.put (previous.elim event ({ · with reserves := event.reserves }))) ∨
    ∃ state, previous = some state ∧
      event.plan precision previous = .ok (.replace { event with reserves := state.reserves }) := by
  rcases event.kind_cases precision with ⟨hdust, _, _⟩ | ⟨_, hsnapshot, _⟩ | ⟨_, _, htrade⟩
  · left
    exact plan_of_isDust hdust previous
  · right
    left
    rw [plan_of_isSnapshot hsnapshot]
    cases previous <;> rfl
  · rw [plan_of_isTrade htrade]
    cases previous with
    | none =>
      right
      left
      rfl
    | some state =>
      dsimp only
      split
      · left
        rfl
      · right
        right
        exact ⟨state, rfl, rfl⟩

namespace Reconciler

inductive BurnDelivered (r : Reconciler) (report : BurnEntry) : Except IndexError BurnOutcome × Reconciler → Prop where
  | rejected {e : IndexError} (h : report.plan (r.stored? report.blockNumber) = .error e) :
    BurnDelivered r report (.error e, r)
  | alreadyApplied (h : report.plan (r.stored? report.blockNumber) = .ok .skip) :
    BurnDelivered r report (.ok .alreadyApplied, r)
  | inserted {burns : Listing BurnEntry}
    (h : Wrote report.blockNumber none report r.burns.store burns.store) :
    BurnDelivered r report (.ok .inserted, { r with burns })
  | merged {burns : Listing BurnEntry} {entry : BurnEntry}
    (h : Wrote report.blockNumber (some entry) (entry.absorb report) r.burns.store burns.store) :
    BurnDelivered r report (.ok .merged, { r with burns })

inductive SwapDelivered (r : Reconciler) (event : SwapState) : Except IndexError SwapOutcome × Reconciler → Prop where
  | passed {disposition : SwapDisposition}
    (h : event.rekey.plan r.precision (r.swaps.store.find? (RecordKey.encode event.rekey.key)) = .ok .skip)
    (hpassed : disposition = .dustDropped ∨ disposition = .alreadyKnown) :
    SwapDelivered r event (.ok ⟨false, none, disposition⟩, r)
  | inserted {swaps : Listing SwapState}
    (h : Wrote (.derive event.txHash event.pair) none event.rekey r.swaps.store swaps.store) :
    SwapDelivered r event (.ok ⟨true, none, .inserted⟩, { r with swaps })
  | reservesUpdated {swaps : Listing SwapState} {state : SwapState}
    (h : Wrote (.derive event.txHash event.pair) (some state) { state with reserves := event.reserves }
      r.swaps.store swaps.store) :
    SwapDelivered r event (.ok ⟨false, none, .reservesUpdated⟩, { r with swaps })
  | transplanted {swaps : Listing SwapState} {state : SwapState}
    (h : Wrote (.derive event.txHash event.pair) (some state) { event.rekey with reserves := state.reserves }
      r.swaps.store swaps.store) :
    SwapDelivered r event (.ok ⟨true, some state.reserves, .transplanted⟩, { r with swaps })

theorem burnDelivered_deliverBurn {r : Reconciler} (h : r.burns.store.Consistent) (report : BurnEntry) :
    r.BurnDelivered report (r.deliverBurn report) := by
  have hmerged := Engine.merged_merge h report.blockNumber report.plan
  have hplan := report.plan_cases (r.stored? report.blockNumber)
  unfold stored? at hplan
  unfold deliverBurn
  dsimp only
  generalize r.burns.merge report.blockNumber report.plan = result at hmerged ⊢
  cases hmerged with
  | failed hfailed => exact .rejected hfailed
  | foreign hforeign hx hkey =>
    apply absurd _ hkey
    apply BurnEntry.key_of_plan hforeign _ _ hx
    intro entry hentry
    exact blockNumber_of_stored? h hentry
  | skipped hskip => exact .alreadyApplied hskip
  | put hput _ hwrote =>
    simp only [hput, reduceCtorEq, exists_false, false_or, Except.ok.injEq, Write.put.injEq] at hplan
    rw [hplan] at hwrote
    cases hprevious : r.burns.store.find? (RecordKey.encode report.blockNumber) with
    | none =>
      rw [hprevious] at hwrote
      exact .inserted hwrote
    | some entry =>
      rw [hprevious] at hwrote
      exact .merged hwrote
  | replace hreplace _ _ => simp [hreplace] at hplan

theorem swapDelivered_deliverSwap {r : Reconciler} (h : r.swaps.store.Consistent) (event : SwapState) :
    r.SwapDelivered event (r.deliverSwap event) := by
  have hmerged := Engine.merged_merge h event.rekey.key (event.rekey.plan r.precision)
  have hplan := event.rekey.plan_cases r.precision (r.swaps.store.find? (RecordKey.encode event.rekey.key))
  unfold deliverSwap
  dsimp only
  generalize r.swaps.merge event.rekey.key (event.rekey.plan r.precision) = result at hmerged ⊢
  cases hmerged with
  | failed hfailed => simp [hfailed] at hplan
  | foreign hforeign hx hkey =>
    apply absurd _ hkey
    apply SwapState.key_of_plan hforeign _ _ hx
    intro state hstate
    exact RecordKey.encode_inj (h.key_of_find? hstate)
  | skipped hskip =>
    unfold SwapOutcome.ofApplied
    cases hprevious : r.swaps.store.find? (RecordKey.encode event.rekey.key) with
    | none => exact .passed hskip (.inl rfl)
    | some state =>
      apply SwapDelivered.passed hskip
      split
      · left
        rfl
      · right
        rfl
  | put hput _ hwrote =>
    simp only [hput, reduceCtorEq, and_false, exists_false, false_or, or_false, Except.ok.injEq,
      Write.put.injEq] at hplan
    rw [hplan] at hwrote
    cases hprevious : r.swaps.store.find? (RecordKey.encode event.rekey.key) with
    | none =>
      rw [hprevious] at hwrote
      exact .inserted hwrote
    | some state =>
      rw [hprevious] at hwrote
      exact .reservesUpdated hwrote
  | replace hreplace _ hwrote =>
    simp only [hreplace, reduceCtorEq, false_or, Except.ok.injEq, Write.replace.injEq] at hplan
    obtain ⟨state, hprevious, hx⟩ := hplan
    rw [hprevious, hx] at hwrote
    rw [hprevious]
    exact .transplanted hwrote

theorem writes_atomic :
    (∀ (kind : RecordKind) (g : Listing kind.Entry), g.store.Reachable →
      (∀ (key : kind.EntryKey) (plan : Planner kind.Entry), Engine.Merged g key plan (g.merge key plan)) ∧
      ∀ r : kind.Entry, ∃ stored g', g.upsert r =
          (.ok (if (g.store.find? (keyText r)).isSome then .updated else .inserted, stored), g') ∧
        Wrote (Record.key r) (g.store.find? (keyText r)) stored g.store g'.store) ∧
    (∀ r : Reconciler, r.burns.store.Reachable → ∀ report, r.BurnDelivered report (r.deliverBurn report)) ∧
    (∀ r : Reconciler, r.swaps.store.Reachable → ∀ event, r.SwapDelivered event (r.deliverSwap event)) := by
  refine ⟨?_, ?_, ?_⟩
  · intro kind g hs
    exact ⟨Engine.merged_merge hs.consistent, Engine.wrote_upsert hs.consistent⟩
  · intro r hs report
    exact burnDelivered_deliverBurn hs.consistent report
  · intro r hs event
    exact swapDelivered_deliverSwap hs.consistent event

def warmEpochs : Listing Epoch :=
  (⟨Engine.tiedEpochs, some (.empty 1 2)⟩ : Listing Epoch).warm.2

def laterEpoch : Epoch :=
  { Engine.tiedEpoch 7 with ordinal := ⟨9⟩ }

theorem writes_atomic_warm_epochs :
    (warmEpochs.merge 8 fun _ => .ok (.put (Engine.tiedEpoch 9))).2 = warmEpochs ∧
    ∃ g', (warmEpochs.merge 7 fun _ => .ok (.replace laterEpoch)) =
        (.ok ⟨some (Engine.tiedEpoch 7), .replace laterEpoch⟩, g') ∧
      Wrote (7 : UInt64) (some (Engine.tiedEpoch 7)) laterEpoch warmEpochs.store g'.store := by
  have hstore : warmEpochs.store = Engine.tiedEpochs :=
    congrArg Engine.store (Engine.warm_eq Engine.reachable_tiedEpochs.consistent)
  have hs : warmEpochs.store.Reachable := by
    rw [hstore]
    exact Engine.reachable_tiedEpochs
  have hfind : warmEpochs.store.find? (RecordKey.encode (7 : UInt64)) = some (Engine.tiedEpoch 7) := by
    rw [hstore]
    decide +kernel
  have hmerged := (writes_atomic.1 .epoch warmEpochs hs).1
  constructor
  · have hforeign : Engine.Merged warmEpochs (8 : UInt64) (fun _ => .ok (.put (Engine.tiedEpoch 9)))
        (warmEpochs.merge 8 fun _ => .ok (.put (Engine.tiedEpoch 9))) := hmerged (8 : UInt64) _
    generalize warmEpochs.merge 8 (fun _ => .ok (.put (Engine.tiedEpoch 9))) = result at hforeign ⊢
    cases hforeign with
    | failed h => cases h
    | foreign _ _ _ => rfl
    | skipped h => cases h
    | put h hkey _ =>
      cases h
      exact absurd hkey (by decide)
    | replace h _ _ => cases h
  · have hwritten : Engine.Merged warmEpochs (7 : UInt64) (fun _ => .ok (.replace laterEpoch))
        (warmEpochs.merge 7 fun _ => .ok (.replace laterEpoch)) := hmerged (7 : UInt64) _
    generalize warmEpochs.merge 7 (fun _ => .ok (.replace laterEpoch)) = result at hwritten ⊢
    cases hwritten with
    | failed h => cases h
    | foreign h hx hkey =>
      cases h
      cases hx
      exact absurd rfl hkey
    | skipped h => cases h
    | put h _ _ => cases h
    | replace h _ hwrote =>
      cases h
      rw [hfind] at hwrote ⊢
      exact ⟨_, rfl, hwrote⟩

end Reconciler

end ChainIndex
