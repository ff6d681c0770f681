import ChainIndex.Proofs.Listing.Caching
import ChainIndex.Reconcile.Reconciler

/-!
This module contains the proof that the ledger of burned fees accounts for every transaction once: the reports
that it has accepted for a block share no transaction, and the entry of the block is their sum.
-/

namespace ChainIndex

open Cache (keyText)

structure Delivery where
  report : BurnEntry
  answer : Except IndexError BurnOutcome

namespace Delivery

def isAccepted (d : Delivery) (block : UInt64) : Bool :=
  d.report.blockNumber == block &&
    match d.answer with
    | .ok .inserted => true
    | .ok .merged => true
    | _ => false

end Delivery

def acceptedFor (block : UInt64) (log : List Delivery) : List BurnEntry :=
  (log.filter fun d => d.isAccepted block).map Delivery.report

theorem acceptedFor_append (block : UInt64) (log : List Delivery) (d : Delivery) :
    acceptedFor block (log ++ [d]) = acceptedFor block log ++ if d.isAccepted block then [d.report] else [] := by
  unfold acceptedFor
  rw [List.filter_append, List.map_append, List.filter_cons, List.filter_nil]
  split <;> rfl

def totalAmount (reports : List BurnEntry) : Nat :=
  reports.foldr (fun report total => report.amount.toNat + total) 0

theorem totalAmount_append (reports : List BurnEntry) (report : BurnEntry) :
    totalAmount (reports ++ [report]) = totalAmount reports + report.amount.toNat := by
  unfold totalAmount
  induction reports with
  | nil => simp
  | cons first rest ih =>
    rw [List.cons_append, List.foldr_cons, List.foldr_cons, ih]
    omega

/--
What is stored for a block, if anything, is the sum of the reports that have been accepted for it.
-/
structure Accounts (stored? : Option BurnEntry) (accepted : List BurnEntry) : Prop where
  isNone_iff : stored? = none ↔ accepted = []
  disjoint : accepted.Pairwise fun a b => ∀ tx ∈ a.txs, tx ∉ b.txs
  mem_txs_iff : ∀ entry ∈ stored?, ∀ tx, tx ∈ entry.txs ↔ ∃ a ∈ accepted, tx ∈ a.txs
  amount : ∀ entry ∈ stored?, entry.amount.toNat = min (totalAmount accepted) Amount.max

namespace Accounts

theorem nothing : Accounts none [] := by
  constructor
  · exact ⟨fun _ => rfl, fun _ => rfl⟩
  · exact .nil
  · intro entry h
    cases h
  · intro entry h
    cases h

theorem insert {accepted : List BurnEntry} (h : Accounts none accepted) (report : BurnEntry) :
    Accounts (some report) (accepted ++ [report]) := by
  rw [h.isNone_iff.1 rfl, List.nil_append]
  constructor
  · simp
  · exact List.pairwise_singleton _ _
  · intro entry hentry tx
    cases hentry
    simp
  · intro entry hentry
    cases hentry
    exact (Nat.min_eq_left report.amount.le_max).symm

theorem absorb {entry report : BurnEntry} {accepted : List BurnEntry} (h : Accounts (some entry) accepted)
    (hnew : ∀ tx ∈ report.txs, tx ∉ entry.txs) :
    Accounts (some (entry.absorb report)) (accepted ++ [report]) := by
  constructor
  · simp
  · rw [List.pairwise_append]
    refine ⟨h.disjoint, List.pairwise_singleton _ _, ?_⟩
    intro a ha b hb tx hta htb
    rw [List.mem_singleton] at hb
    rw [hb] at htb
    exact hnew tx htb ((h.mem_txs_iff entry rfl tx).2 ⟨a, ha, hta⟩)
  · intro merged hmerged tx
    cases hmerged
    unfold BurnEntry.absorb
    rw [TxSet.mem_union, h.mem_txs_iff entry rfl]
    simp only [List.mem_append, List.mem_singleton, or_and_right, exists_or, exists_eq_left]
    exact or_comm
  · intro merged hmerged
    cases hmerged
    unfold BurnEntry.absorb
    rw [totalAmount_append, Amount.toNat_add, h.amount entry rfl]
    omega

end Accounts

namespace BurnEntry

variable {entry report : BurnEntry}

theorem plan_of_known (h : ∀ tx ∈ report.txs, tx ∈ entry.txs) : report.plan (some entry) = .ok .skip := by
  unfold plan
  dsimp only
  rw [if_pos (TxSet.overlap_eq_size_iff.2 h)]

theorem plan_of_partly_known (hknown : ∃ tx ∈ report.txs, tx ∈ entry.txs)
    (hnew : ∃ tx ∈ report.txs, tx ∉ entry.txs) :
    report.plan (some entry) =
      .error (.partialBurnUpdateRejected report.blockNumber (entry.txs.overlap report.txs) report.txs.size) := by
  have hne : ¬entry.txs.overlap report.txs = report.txs.size := by
    rw [TxSet.overlap_eq_size_iff]
    intro hall
    obtain ⟨tx, htx, hout⟩ := hnew
    exact hout (hall tx htx)
  unfold plan
  dsimp only
  rw [if_neg hne, if_pos (TxSet.overlap_pos_iff.2 hknown)]

theorem plan_of_new (hnew : ∃ tx ∈ report.txs, tx ∉ entry.txs) (hnone : ∀ tx ∈ report.txs, tx ∉ entry.txs) :
    report.plan (some entry) = .ok (.put (entry.absorb report)) := by
  obtain ⟨tx, htx, hout⟩ := hnew
  have hne : ¬entry.txs.overlap report.txs = report.txs.size := by
    rw [TxSet.overlap_eq_size_iff]
    intro hall
    exact hout (hall tx htx)
  have hzero : ¬0 < entry.txs.overlap report.txs := by
    rw [TxSet.overlap_pos_iff]
    rintro ⟨tx, htx, hin⟩
    exact hnone tx htx hin
  unfold plan
  dsimp only
  rw [if_neg hne, if_neg hzero]

end BurnEntry

/--
The answer to a report, as the entry of its block decides it: there is none, or it has all, some or none of the
report's transactions.
-/
structure Answered (stored? : Option BurnEntry) (report : BurnEntry) (answer : Except IndexError BurnOutcome) :
    Prop where
  inserted_iff : answer = .ok .inserted ↔ stored? = none
  alreadyApplied_iff : answer = .ok .alreadyApplied ↔ ∃ entry ∈ stored?, ∀ tx ∈ report.txs, tx ∈ entry.txs
  rejected_iff : ∀ e, answer = .error e ↔
    ∃ entry ∈ stored?, (∃ tx ∈ report.txs, tx ∈ entry.txs) ∧ (∃ tx ∈ report.txs, tx ∉ entry.txs) ∧
      e = .partialBurnUpdateRejected report.blockNumber
        (report.txs.toList.filter fun tx => tx ∈ entry.txs.toList).length report.txs.size
  merged_iff : answer = .ok .merged ↔
    ∃ entry ∈ stored?, (∃ tx ∈ report.txs, tx ∉ entry.txs) ∧ ∀ tx ∈ report.txs, tx ∉ entry.txs

namespace Reconciler

def stored? (r : Reconciler) (block : UInt64) : Option BurnEntry :=
  r.burns.store.find? (RecordKey.encode block)

def deliverBurns (r : Reconciler) : List BurnEntry → List Delivery × Reconciler
  | [] => ([], r)
  | report :: rest =>
    let (answer, r) := r.deliverBurn report
    let (log, r) := r.deliverBurns rest
    (⟨report, answer⟩ :: log, r)

section deliverBurn

variable {r : Reconciler} {report entry : BurnEntry}

theorem deliverBurn_of_error {e : IndexError} (h : report.plan (r.stored? report.blockNumber) = .error e) :
    r.deliverBurn report = (.error e, r) := by
  unfold deliverBurn
  rw [Engine.merge_of_error h]
  rfl

theorem deliverBurn_of_skip (h : report.plan (r.stored? report.blockNumber) = .ok .skip) :
    r.deliverBurn report = (.ok .alreadyApplied, r) := by
  unfold deliverBurn
  rw [Engine.merge_of_skip h]
  rfl

theorem deliverBurn_of_put (h : report.plan (r.stored? report.blockNumber) = .ok (.put entry))
    (hblock : entry.blockNumber = report.blockNumber) :
    ∃ r', r.deliverBurn report =
        (.ok (if (r.stored? report.blockNumber).isNone then .inserted else .merged), r') ∧
      r'.stored? report.blockNumber = some (MemoryStore.keepOrdinal (r.stored? report.blockNumber) entry) := by
  have hkey : keyText entry = RecordKey.encode report.blockNumber := congrArg RecordKey.encode hblock
  obtain ⟨hanswer, hstore⟩ := r.burns.merge_eq report.blockNumber report.plan
  refine ⟨(r.deliverBurn report).2, Prod.ext ?_ rfl, ?_⟩
  · have hmerge := congrArg Prod.fst (MemoryStore.merge_of_put h hkey)
    have houtcome := congrArg (Except.map BurnOutcome.ofApplied) (hanswer.trans hmerge)
    rw [hkey] at houtcome
    unfold stored?
    cases hentry : r.burns.store.find? (RecordKey.encode report.blockNumber) with
    | none =>
      rw [hentry] at houtcome
      exact houtcome
    | some previous =>
      rw [hentry] at houtcome
      exact houtcome
  · have hwritten : ∀ x, (Write.put entry).written? = some x →
        keyText x = RecordKey.encode report.blockNumber := by
      intro x hx
      rwa [← Option.some.inj hx]
    have hfind := MemoryStore.find?_merge_self h hwritten
    rw [← hstore] at hfind
    exact hfind

theorem stored?_deliverBurn_of_ne (r : Reconciler) {report : BurnEntry} {block : UInt64}
    (h : block ≠ report.blockNumber) : (r.deliverBurn report).2.stored? block = r.stored? block := by
  have hne : RecordKey.encode block ≠ RecordKey.encode report.blockNumber := by
    intro heq
    exact h (RecordKey.encode_inj heq)
  have hfind := r.burns.store.find?_merge_of_ne report.plan hne
  rw [← (r.burns.merge_eq report.blockNumber report.plan).2] at hfind
  exact hfind

theorem consistent_deliverBurn (h : r.burns.store.Consistent) (report : BurnEntry) :
    (r.deliverBurn report).2.burns.store.Consistent := by
  have hmerge := h.merge report.blockNumber report.plan
  rw [← (r.burns.merge_eq report.blockNumber report.plan).2] at hmerge
  exact hmerge

theorem blockNumber_of_stored? (h : r.burns.store.Consistent) {block : UInt64}
    (hentry : r.stored? block = some entry) : entry.blockNumber = block :=
  RecordKey.encode_inj (h.key_of_find? hentry)

inductive Effect (r : Reconciler) (report : BurnEntry) : Except IndexError BurnOutcome × Reconciler → Prop where
  | inserted {r' : Reconciler} (hnone : r.stored? report.blockNumber = none)
    (hstored : r'.stored? report.blockNumber = some report) : Effect r report (.ok .inserted, r')
  | alreadyApplied {entry : BurnEntry} (hentry : r.stored? report.blockNumber = some entry)
    (hall : ∀ tx ∈ report.txs, tx ∈ entry.txs) : Effect r report (.ok .alreadyApplied, r)
  | rejected {entry : BurnEntry} (hentry : r.stored? report.blockNumber = some entry)
    (hknown : ∃ tx ∈ report.txs, tx ∈ entry.txs) (hnew : ∃ tx ∈ report.txs, tx ∉ entry.txs) :
    Effect r report (.error (.partialBurnUpdateRejected report.blockNumber
      (entry.txs.overlap report.txs) report.txs.size), r)
  | merged {r' : Reconciler} {entry : BurnEntry} (hentry : r.stored? report.blockNumber = some entry)
    (hnew : ∃ tx ∈ report.txs, tx ∉ entry.txs) (hall : ∀ tx ∈ report.txs, tx ∉ entry.txs)
    (hstored : r'.stored? report.blockNumber = some (entry.absorb report)) : Effect r report (.ok .merged, r')

theorem effect_deliverBurn (h : r.burns.store.Consistent) (report : BurnEntry) :
    r.Effect report (r.deliverBurn report) := by
  cases hentry : r.stored? report.blockNumber with
  | none =>
    have hplan : report.plan (r.stored? report.blockNumber) = .ok (.put report) := by
      rw [hentry]
      rfl
    obtain ⟨r', hdelivered, hstored⟩ := deliverBurn_of_put hplan rfl
    rw [hentry] at hdelivered hstored
    rw [hdelivered]
    exact .inserted hentry hstored
  | some entry =>
    by_cases hall : ∀ tx ∈ report.txs, tx ∈ entry.txs
    · have hplan : report.plan (r.stored? report.blockNumber) = .ok .skip := by
        rw [hentry, BurnEntry.plan_of_known hall]
      rw [deliverBurn_of_skip hplan]
      exact .alreadyApplied hentry hall
    · have hnew : ∃ tx ∈ report.txs, tx ∉ entry.txs := by
        simpa using hall
      by_cases hknown : ∃ tx ∈ report.txs, tx ∈ entry.txs
      · have hplan := BurnEntry.plan_of_partly_known hknown hnew
        rw [← hentry] at hplan
        rw [deliverBurn_of_error hplan]
        exact .rejected hentry hknown hnew
      · have hnone : ∀ tx ∈ report.txs, tx ∉ entry.txs := by
          intro tx htx hin
          exact hknown ⟨tx, htx, hin⟩
        have hplan : report.plan (r.stored? report.blockNumber) = .ok (.put (entry.absorb report)) := by
          rw [hentry, BurnEntry.plan_of_new hnew hnone]
        have hblock := blockNumber_of_stored? h hentry
        obtain ⟨r', hdelivered, hstored⟩ := deliverBurn_of_put hplan hblock
        rw [hentry] at hdelivered hstored
        rw [hdelivered]
        exact .merged hentry hnew hnone hstored

namespace Effect

variable {result : Except IndexError BurnOutcome × Reconciler}

theorem stored?_ne_none (h : r.Effect report result) : result.2.stored? report.blockNumber ≠ none := by
  cases h with
  | inserted _ hstored => simp [hstored]
  | alreadyApplied hentry _ => simp [hentry]
  | rejected hentry _ _ => simp [hentry]
  | merged _ _ _ hstored => simp [hstored]

theorem accepted_or (h : r.Effect report result) :
    result.1 = .ok .inserted ∨ result.1 = .ok .merged ∨ result.2 = r := by
  cases h with
  | inserted _ _ => simp
  | alreadyApplied _ _ => simp
  | rejected _ _ _ => simp
  | merged _ _ _ _ => simp

theorem answered (h : r.Effect report result) :
    Answered (r.stored? report.blockNumber) report result.1 := by
  cases h with
  | inserted hnone _ =>
    rw [hnone]
    constructor <;> simp
  | @alreadyApplied entry hentry hall =>
    have hnotnew : ¬∃ tx ∈ report.txs, tx ∉ entry.txs := by
      simpa using hall
    rw [hentry]
    constructor
    · simp
    · simpa using hall
    · simp [hnotnew]
    · simp [hnotnew]
  | @rejected entry hentry hknown hnew =>
    have hnotall : ¬∀ tx ∈ report.txs, tx ∈ entry.txs := by
      simpa using hnew
    have hnotnone : ¬∀ tx ∈ report.txs, tx ∉ entry.txs := by
      simpa using hknown
    rw [hentry]
    constructor
    · simp
    · simp [hnotall]
    · simp [hknown, hnew, TxSet.overlap_eq, eq_comm]
    · simp [hnotnone]
  | @merged _ entry hentry hnew hnone _ =>
    have hnotall : ¬∀ tx ∈ report.txs, tx ∈ entry.txs := by
      simpa using hnew
    have hnotknown : ¬∃ tx ∈ report.txs, tx ∈ entry.txs := by
      simpa using hnone
    rw [hentry]
    constructor
    · simp
    · simp [hnotall]
    · simp [hnotknown]
    · simpa [hnew] using hnone

end Effect

end deliverBurn

structure Balanced (r : Reconciler) (log : List Delivery) : Prop where
  consistent : r.burns.store.Consistent
  accounts : ∀ block, Accounts (r.stored? block) (acceptedFor block log)
  undelivered : ∀ block, r.stored? block = none ↔ ∀ report ∈ log.map Delivery.report, report.blockNumber ≠ block

namespace Balanced

variable {r : Reconciler} {log : List Delivery}

theorem deliverBurn_of_accounts (h : r.Balanced log) {report : BurnEntry}
    (hown : Accounts ((r.deliverBurn report).2.stored? report.blockNumber)
      (acceptedFor report.blockNumber (log ++ [⟨report, (r.deliverBurn report).1⟩])))
    (hsome : (r.deliverBurn report).2.stored? report.blockNumber ≠ none) :
    (r.deliverBurn report).2.Balanced (log ++ [⟨report, (r.deliverBurn report).1⟩]) := by
  constructor
  · exact consistent_deliverBurn h.consistent report
  · intro block
    by_cases hblock : block = report.blockNumber
    · rw [hblock]
      exact hown
    · have hother : (⟨report, (r.deliverBurn report).1⟩ : Delivery).isAccepted block = false := by
        unfold Delivery.isAccepted
        rw [beq_false_of_ne (Ne.symm hblock), Bool.false_and]
      rw [r.stored?_deliverBurn_of_ne hblock, acceptedFor_append, hother]
      simpa using h.accounts block
  · intro block
    by_cases hblock : block = report.blockNumber
    · rw [hblock]
      constructor
      · intro hnone
        exact absurd hnone hsome
      · intro hall
        rw [List.map_append] at hall
        exact absurd rfl (hall report (List.mem_append_right _ List.mem_cons_self))
    · rw [r.stored?_deliverBurn_of_ne hblock, h.undelivered, List.map_append]
      simp [or_imp, forall_and, Ne.symm hblock]

theorem deliverBurn (h : r.Balanced log) (report : BurnEntry) :
    (r.deliverBurn report).2.Balanced (log ++ [⟨report, (r.deliverBurn report).1⟩]) := by
  have haccounts := h.accounts report.blockNumber
  have heffect := effect_deliverBurn h.consistent report
  apply h.deliverBurn_of_accounts _ heffect.stored?_ne_none
  rw [acceptedFor_append]
  unfold Delivery.isAccepted
  dsimp only
  generalize r.deliverBurn report = result at heffect ⊢
  -- A report that is known in whole or in part is left out of the accounts and of the entry alike.
  cases heffect with
  | inserted hnone hstored =>
    rw [hnone] at haccounts
    rw [hstored]
    simpa using haccounts.insert report
  | alreadyApplied _ _ => simpa using haccounts
  | rejected _ _ _ => simpa using haccounts
  | merged hentry _ hall hstored =>
    rw [hentry] at haccounts
    rw [hstored]
    simpa using haccounts.absorb hall

theorem deliverBurns (h : r.Balanced log) (reports : List BurnEntry) :
    (r.deliverBurns reports).2.Balanced (log ++ (r.deliverBurns reports).1) := by
  induction reports generalizing r log with
  | nil =>
    rw [Reconciler.deliverBurns, List.append_nil]
    exact h
  | cons report rest ih =>
    have hrest := ih (h.deliverBurn report)
    rw [List.append_assoc] at hrest
    exact hrest

end Balanced

theorem map_report_deliverBurns (r : Reconciler) (reports : List BurnEntry) :
    (r.deliverBurns reports).1.map Delivery.report = reports := by
  induction reports generalizing r with
  | nil => rfl
  | cons report rest ih => exact congrArg (report :: ·) (ih (r.deliverBurn report).2)

/--
Whatever is delivered to an empty ledger, the entry of a block is the sum of the reports that have been accepted
for it, and these share no transaction. The next report is answered from the entry as it stands then.
-/
theorem accounts_deliverBurns (cache : Option (Cache BurnEntry)) (swaps : Listing SwapState) (precision : UInt8)
    (reports : List BurnEntry) :
    let run := (⟨⟨.empty, cache⟩, swaps, precision⟩ : Reconciler).deliverBurns reports
    (∀ block : UInt64, Accounts (run.2.stored? block) (acceptedFor block run.1) ∧
      (run.2.stored? block = none ↔ ∀ report ∈ reports, report.blockNumber ≠ block)) ∧
    ∀ report : BurnEntry,
      Answered (run.2.stored? report.blockNumber) report (run.2.deliverBurn report).1 ∧
      ((run.2.deliverBurn report).1 = .ok .inserted ∨ (run.2.deliverBurn report).1 = .ok .merged ∨
        (run.2.deliverBurn report).2 = run.2) := by
  have hstart : (⟨⟨.empty, cache⟩, swaps, precision⟩ : Reconciler).Balanced [] := by
    constructor
    · exact MemoryStore.consistent_empty
    · intro block
      exact Accounts.nothing
    · intro block
      simp [stored?, MemoryStore.find?_eq, MemoryStore.empty]
  have h := hstart.deliverBurns reports
  rw [List.nil_append] at h
  intro run
  constructor
  · intro block
    refine ⟨h.accounts block, ?_⟩
    rw [h.undelivered block, map_report_deliverBurns]
  · intro report
    have heffect := effect_deliverBurn h.consistent report
    exact ⟨heffect.answered, heffect.accepted_or⟩

end Reconciler

end ChainIndex
