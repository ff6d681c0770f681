import ChainIndex.Proofs.Reconcile.BurnAccounts

/-!
This module contains what reports of burned fees add up to that share no transaction. A report of new transactions
is added to the entry of its block in full, and what a family of such reports adds up to depends neither on the
order in which they arrive nor on how often each of them does. A report without any transaction is known to
every entry, so its amount is added to none.
-/

namespace ChainIndex

theorem totalAmount_perm {reports others : List BurnEntry} (h : reports.Perm others) :
    totalAmount reports = totalAmount others := by
  unfold totalAmount
  induction h with
  | nil => rfl
  | cons report _ ih => rw [List.foldr_cons, List.foldr_cons, ih]
  | swap first second rest =>
    rw [List.foldr_cons, List.foldr_cons, List.foldr_cons, List.foldr_cons]
    omega
  | trans _ _ ih ih' => rw [ih, ih']

theorem eq_of_mem_txs {reports : List BurnEntry} (h : reports.Pairwise fun a b => ∀ tx ∈ a.txs, tx ∉ b.txs)
    {a b : BurnEntry} (ha : a ∈ reports) (hb : b ∈ reports) {tx : TxHash} (hta : tx ∈ a.txs) (htb : tx ∈ b.txs) :
    a = b := by
  induction reports with
  | nil => cases ha
  | cons first rest ih =>
    have hfirst := List.pairwise_cons.1 h
    cases List.mem_cons.1 ha with
    | inl hafirst =>
      cases List.mem_cons.1 hb with
      | inl hbfirst => rw [hafirst, hbfirst]
      | inr hbrest =>
        rw [hafirst] at hta
        exact absurd htb (hfirst.1 b hbrest tx hta)
    | inr harest =>
      cases List.mem_cons.1 hb with
      | inl hbfirst =>
        rw [hbfirst] at htb
        exact absurd hta (hfirst.1 a harest tx htb)
      | inr hbrest => exact ih hfirst.2 harest hbrest

theorem nodup_of_disjoint {reports : List BurnEntry}
    (h : reports.Pairwise fun a b => ∀ tx ∈ a.txs, tx ∉ b.txs)
    (hnonempty : ∀ report ∈ reports, report.txs ≠ .empty) : reports.Nodup := by
  apply h.imp_of_mem
  intro a b ha _ hdisjoint heq
  obtain ⟨tx, htx⟩ := TxSet.ne_empty_iff.1 (hnonempty a ha)
  apply hdisjoint tx htx
  rwa [← heq]

namespace Accounts

theorem of_perm {stored? : Option BurnEntry} {accepted others : List BurnEntry} (h : Accounts stored? accepted)
    (hperm : accepted.Perm others) : Accounts stored? others := by
  constructor
  · rw [h.isNone_iff]
    constructor
    · intro hnil
      rw [hnil] at hperm
      exact hperm.nil_eq.symm
    · intro hnil
      rw [hnil] at hperm
      exact hperm.eq_nil
  · apply hperm.pairwise h.disjoint
    intro a b hab tx htb hta
    exact hab tx hta htb
  · intro entry hentry tx
    rw [h.mem_txs_iff entry hentry]
    simp only [hperm.mem_iff]
  · intro entry hentry
    rw [h.amount entry hentry, totalAmount_perm hperm]

theorem entry_unique {entry other : BurnEntry} {accepted : List BurnEntry} (h : Accounts (some entry) accepted)
    (h' : Accounts (some other) accepted) : entry.amount = other.amount ∧ entry.txs = other.txs := by
  constructor
  · apply Amount.ext
    rw [h.amount entry rfl, h'.amount other rfl]
  · apply TxSet.eq_of_mem_iff
    intro tx
    rw [h.mem_txs_iff entry rfl, h'.mem_txs_iff other rfl]

end Accounts

def distinctFor (block : UInt64) (reports : List BurnEntry) : List BurnEntry :=
  (reports.filter fun report => report.blockNumber = block).eraseDups

theorem mem_distinctFor {block : UInt64} {reports : List BurnEntry} {report : BurnEntry} :
    report ∈ distinctFor block reports ↔ report ∈ reports ∧ report.blockNumber = block := by
  unfold distinctFor
  rw [List.mem_eraseDups, List.mem_filter, decide_eq_true_iff]

theorem distinctFor_append (block : UInt64) (reports : List BurnEntry) (report : BurnEntry) :
    distinctFor block (reports ++ [report]) =
      if report.blockNumber = block ∧ report ∉ reports then distinctFor block reports ++ [report]
      else distinctFor block reports := by
  unfold distinctFor
  rw [List.filter_append, List.eraseDups_append]
  by_cases hblock : report.blockNumber = block
  · by_cases hmem : report ∈ reports
    · simp [hblock, hmem, List.removeAll]
    · simp [hblock, hmem, List.removeAll, List.eraseDups_cons]
  · simp [hblock, List.removeAll]

theorem BurnEntry.of_create {block : UInt64} {amount : Amount} {hashes : List TxHash} {report : BurnEntry}
    (h : create block amount hashes = .ok report) :
    report.blockNumber = block ∧ Ordinal.ofPosition (.ofTransaction block 0) = .ok report.ordinal := by
  obtain ⟨ordinal, hordinal, hreport⟩ := bind_eq_ok_iff.1 h
  cases hreport
  exact ⟨rfl, hordinal⟩

structure BurnFamily (block : UInt64) (family : List BurnEntry) : Prop where
  created : ∀ report ∈ family, ∃ amount hashes, BurnEntry.create block amount hashes = .ok report
  nonempty : ∀ report ∈ family, report.txs ≠ .empty
  disjoint : family.Pairwise fun a b => ∀ tx ∈ a.txs, tx ∉ b.txs

namespace BurnFamily

variable {block : UInt64} {family : List BurnEntry} {report : BurnEntry}

theorem blockNumber_eq (h : BurnFamily block family) (hreport : report ∈ family) : report.blockNumber = block := by
  obtain ⟨_, _, hcreate⟩ := h.created report hreport
  exact (BurnEntry.of_create hcreate).1

theorem ordinal_eq (h : BurnFamily block family) (hreport : report ∈ family) :
    Ordinal.ofPosition (.ofTransaction block 0) = .ok report.ordinal := by
  obtain ⟨_, _, hcreate⟩ := h.created report hreport
  exact (BurnEntry.of_create hcreate).2

end BurnFamily

/--
The reports for the block are those of the family, each of them once or more, between reports for other blocks.
-/
structure Covers (reports : List BurnEntry) (block : UInt64) (family : List BurnEntry) : Prop where
  only : ∀ report ∈ reports, report.blockNumber = block → report ∈ family
  each : ∀ report ∈ family, report ∈ reports

def answerAfter (past : List BurnEntry) (report : BurnEntry) : BurnOutcome :=
  if report ∈ past then .alreadyApplied
  else if past.any fun other => other.blockNumber == report.blockNumber then .merged
  else .inserted

namespace Reconciler

variable {r : Reconciler} {block : UInt64} {family past : List BurnEntry} {report : BurnEntry}

theorem consistent_deliverBurns (h : r.burns.store.Consistent) (reports : List BurnEntry) :
    (r.deliverBurns reports).2.burns.store.Consistent := by
  induction reports generalizing r with
  | nil => exact h
  | cons report rest ih => exact ih (consistent_deliverBurn h report)

theorem deliverBurn_of_disjoint {entry : BurnEntry} (h : r.burns.store.Consistent)
    (hentry : r.stored? report.blockNumber = some entry) (hdisjoint : ∀ tx ∈ report.txs, tx ∉ entry.txs) :
    (report.txs ≠ .empty → (r.deliverBurn report).1 = .ok .merged ∧
      (r.deliverBurn report).2.stored? report.blockNumber = some (entry.absorb report)) ∧
    (report.txs = .empty → r.deliverBurn report = (.ok .alreadyApplied, r)) := by
  rw [TxSet.ne_empty_iff]
  have heffect := effect_deliverBurn h report
  generalize r.deliverBurn report = result at heffect ⊢
  cases heffect with
  | inserted hnone _ =>
    rw [hnone] at hentry
    cases hentry
  | @alreadyApplied known hknown hall =>
    rw [hknown] at hentry
    cases hentry
    constructor
    · intro ⟨tx, htx⟩
      exact absurd (hall tx htx) (hdisjoint tx htx)
    · intro _
      rfl
  | rejected hknown hsome _ =>
    rw [hknown] at hentry
    cases hentry
    obtain ⟨tx, htx, hin⟩ := hsome
    exact absurd hin (hdisjoint tx htx)
  | merged hknown hnew _ hstored =>
    rw [hknown] at hentry
    cases hentry
    constructor
    · intro _
      exact ⟨rfl, hstored⟩
    · intro hempty
      obtain ⟨tx, htx, _⟩ := hnew
      exact absurd hempty (TxSet.ne_empty_iff.2 ⟨tx, htx⟩)

/--
A report that shares no transaction with the entry of its block is added to it in full, unless it has none.
-/
theorem deliverBurns_disjoint (cache : Option (Cache BurnEntry)) (swaps : Listing SwapState) (precision : UInt8)
    {reports : List BurnEntry} {report entry : BurnEntry}
    (hentry : ((⟨⟨.empty, cache⟩, swaps, precision⟩ : Reconciler).deliverBurns reports).2.stored?
      report.blockNumber = some entry)
    (hdisjoint : ∀ tx ∈ report.txs, tx ∉ entry.txs) :
    let run := ((⟨⟨.empty, cache⟩, swaps, precision⟩ : Reconciler).deliverBurns reports).2
    (report.txs ≠ .empty → (run.deliverBurn report).1 = .ok .merged ∧
      ∃ merged, (run.deliverBurn report).2.stored? report.blockNumber = some merged ∧
        merged.amount.toNat = min (entry.amount.toNat + report.amount.toNat) Amount.max ∧
        ∀ tx, tx ∈ merged.txs ↔ tx ∈ entry.txs ∨ tx ∈ report.txs) ∧
    (report.txs = .empty → run.deliverBurn report = (.ok .alreadyApplied, run)) := by
  have hconsistent : (⟨⟨.empty, cache⟩, swaps, precision⟩ : Reconciler).burns.store.Consistent :=
    MemoryStore.consistent_empty
  have hrun := consistent_deliverBurns hconsistent reports
  intro run
  obtain ⟨hmerged, hknown⟩ := deliverBurn_of_disjoint hrun hentry hdisjoint
  refine ⟨?_, hknown⟩
  intro hnonempty
  obtain ⟨hanswer, hstored⟩ := hmerged hnonempty
  refine ⟨hanswer, entry.absorb report, hstored, rfl, ?_⟩
  intro tx
  exact TxSet.mem_union.trans or_comm

def burnHash (n : UInt8) : TxHash :=
  ⟨⟨List.replicate 32 n, List.length_replicate⟩⟩

def burnReport (block : UInt64) (amount : Nat) (hashes : List TxHash) : BurnEntry :=
  ⟨block, .saturate amount, .ofList hashes, ⟨block * 16777216⟩⟩

def smallReport : BurnEntry := burnReport 10 5 [burnHash 1]

def largeReport : BurnEntry := burnReport 10 (Amount.max - 1) [burnHash 3, burnHash 2]

def bareReport : BurnEntry := burnReport 10 3 []

def otherReport : BurnEntry := burnReport 11 7 [burnHash 1]

theorem smallReport_disjoint : ∀ tx ∈ largeReport.txs, tx ∉ smallReport.txs := by
  intro tx hlarge hsmall
  rw [List.mem_singleton.1 hsmall] at hlarge
  exact absurd hlarge (by decide : burnHash 1 ∉ largeReport.txs.toList)

theorem deliverBurns_disjoint_saturating :
    let run := ((create 6 none).deliverBurns [smallReport]).2
    run.stored? 10 = some smallReport ∧ (∀ tx ∈ largeReport.txs, tx ∉ smallReport.txs) ∧
    (run.deliverBurn largeReport).1 = .ok .merged ∧
    ∃ merged, (run.deliverBurn largeReport).2.stored? 10 = some merged ∧ merged.amount.toNat = Amount.max ∧
      ∀ tx, tx ∈ merged.txs ↔ tx ∈ smallReport.txs ∨ tx ∈ largeReport.txs := by
  intro run
  have hentry : run.stored? largeReport.blockNumber = some smallReport := rfl
  obtain ⟨hmerged, _⟩ := deliverBurns_disjoint none ⟨.empty, none⟩ 6 hentry smallReport_disjoint
  obtain ⟨hanswer, merged, hstored, hamount, htxs⟩ := hmerged (by decide)
  refine ⟨hentry, smallReport_disjoint, hanswer, merged, hstored, ?_, htxs⟩
  rw [hamount]
  decide

/--
A report without transactions shares none with any entry, but the amount that it states is not added.
-/
theorem not_forall_disjoint_added :
    ¬∀ (cache : Option (Cache BurnEntry)) (swaps : Listing SwapState) (precision : UInt8)
      (reports : List BurnEntry) (report entry : BurnEntry),
      let run := ((⟨⟨.empty, cache⟩, swaps, precision⟩ : Reconciler).deliverBurns reports).2
      run.stored? report.blockNumber = some entry → (∀ tx ∈ report.txs, tx ∉ entry.txs) →
      (∃ outcome, (run.deliverBurn report).1 = .ok outcome) ∧
      ∃ after, (run.deliverBurn report).2.stored? report.blockNumber = some after ∧
        after.amount.toNat = min (entry.amount.toNat + report.amount.toNat) Amount.max ∧
        ∀ tx, tx ∈ after.txs ↔ tx ∈ entry.txs ∨ tx ∈ report.txs := by
  intro hall
  have hdisjoint : ∀ tx ∈ bareReport.txs, tx ∉ smallReport.txs := fun _ htx => absurd htx List.not_mem_nil
  obtain ⟨_, after, hafter, hamount, _⟩ :=
    hall none ⟨.empty, none⟩ 6 [smallReport] bareReport smallReport rfl hdisjoint
  have hkept : after = smallReport := (Option.some.inj hafter).symm
  rw [hkept] at hamount
  exact absurd hamount (by decide)

structure Gathered (r : Reconciler) (block : UInt64) (past : List BurnEntry) : Prop where
  consistent : r.burns.store.Consistent
  accounts : Accounts (r.stored? block) (distinctFor block past)
  ordinal : ∀ entry ∈ r.stored? block, Ordinal.ofPosition (.ofTransaction block 0) = .ok entry.ordinal

namespace Gathered

theorem start (hr : r.burns.store.Consistent) (hnone : r.stored? block = none) : r.Gathered block [] := by
  constructor
  · exact hr
  · rw [hnone]
    exact .nothing
  · rw [hnone]
    intro entry hentry
    cases hentry

theorem of_stored {entry : BurnEntry} (hr : r.burns.store.Consistent) (hblock : report.blockNumber = block)
    (hpast : report ∉ past) (hstored : r.stored? block = some entry)
    (haccounts : Accounts (some entry) (distinctFor block past ++ [report]))
    (hordinal : Ordinal.ofPosition (.ofTransaction block 0) = .ok entry.ordinal) :
    r.Gathered block (past ++ [report]) := by
  constructor
  · exact hr
  · rw [hstored, distinctFor_append, if_pos ⟨hblock, hpast⟩]
    exact haccounts
  · rw [hstored]
    intro other hother
    cases hother
    exact hordinal

theorem deliverBurn_other (h : r.Gathered block past) (hblock : report.blockNumber ≠ block) :
    (r.deliverBurn report).2.Gathered block (past ++ [report]) := by
  have hstored := r.stored?_deliverBurn_of_ne (Ne.symm hblock)
  constructor
  · exact consistent_deliverBurn h.consistent report
  · rw [hstored, distinctFor_append, if_neg (fun hown => hblock hown.1)]
    exact h.accounts
  · rw [hstored]
    exact h.ordinal

theorem known_iff_mem (h : r.Gathered block past) (hfamily : BurnFamily block family)
    (honly : ∀ other ∈ past, other.blockNumber = block → other ∈ family) (hreport : report ∈ family)
    {entry : BurnEntry} (hentry : r.stored? block = some entry) {tx : TxHash} (htx : tx ∈ report.txs) :
    tx ∈ entry.txs ↔ report ∈ past := by
  have haccounts := h.accounts
  rw [hentry] at haccounts
  rw [haccounts.mem_txs_iff entry rfl]
  constructor
  · intro ⟨other, hother, htxother⟩
    obtain ⟨hpast, hblock⟩ := mem_distinctFor.1 hother
    rw [eq_of_mem_txs hfamily.disjoint hreport (honly other hpast hblock) htx htxother]
    exact hpast
  · intro hpast
    exact ⟨report, mem_distinctFor.2 ⟨hpast, hfamily.blockNumber_eq hreport⟩, htx⟩

theorem any_blockNumber_iff (h : r.Gathered block past) :
    (past.any fun other => other.blockNumber == block) = true ↔ r.stored? block ≠ none := by
  rw [Ne, h.accounts.isNone_iff, List.any_eq_true, List.eq_nil_iff_forall_not_mem]
  simp only [mem_distinctFor, beq_iff_eq, not_and, Classical.not_forall, Classical.not_not, exists_prop]

theorem deliverBurn_own (h : r.Gathered block past) (hfamily : BurnFamily block family)
    (honly : ∀ other ∈ past, other.blockNumber = block → other ∈ family) (hreport : report ∈ family) :
    (r.deliverBurn report).1 = .ok (answerAfter past report) ∧
      (r.deliverBurn report).2.Gathered block (past ++ [report]) := by
  have hblock := hfamily.blockNumber_eq hreport
  have hany := h.any_blockNumber_iff
  have heffect := effect_deliverBurn h.consistent report
  have hconsistent := consistent_deliverBurn h.consistent report
  obtain ⟨tx, htx⟩ := TxSet.ne_empty_iff.1 (hfamily.nonempty report hreport)
  have haccounts := h.accounts
  have hordinal := h.ordinal
  generalize r.deliverBurn report = result at heffect hconsistent ⊢
  unfold answerAfter
  rw [hblock]
  -- Which of the four it is depends on the entry, which knows the transactions of exactly the reports in `past`.
  cases heffect with
  | inserted hnone hstored =>
    rw [hblock] at hnone hstored
    rw [hnone] at haccounts hany
    have hpast : report ∉ past := by
      intro hpast
      have hmem := mem_distinctFor.2 ⟨hpast, hblock⟩
      rw [haccounts.isNone_iff.1 rfl] at hmem
      cases hmem
    have hempty : ¬(past.any fun other => other.blockNumber == block) = true := fun hsome => hany.1 hsome rfl
    constructor
    · rw [if_neg hpast, if_neg hempty]
    · exact of_stored hconsistent hblock hpast hstored (haccounts.insert report) (hfamily.ordinal_eq hreport)
  | alreadyApplied hentry hall =>
    rw [hblock] at hentry
    have hpast := (h.known_iff_mem hfamily honly hreport hentry htx).1 (hall tx htx)
    constructor
    · rw [if_pos hpast]
    · refine ⟨hconsistent, ?_, hordinal⟩
      rw [distinctFor_append, if_neg (fun hnew => hnew.2 hpast)]
      exact haccounts
  | rejected hentry hknown hnew =>
    rw [hblock] at hentry
    obtain ⟨known, hknown, hin⟩ := hknown
    obtain ⟨new, hnew, hout⟩ := hnew
    have hpast := (h.known_iff_mem hfamily honly hreport hentry hknown).1 hin
    exact absurd ((h.known_iff_mem hfamily honly hreport hentry hnew).2 hpast) hout
  | @merged _ entry hentry _ hall hstored =>
    rw [hblock] at hentry hstored
    rw [hentry] at haccounts hany hordinal
    have hpast : report ∉ past := by
      rw [← h.known_iff_mem hfamily honly hreport hentry htx]
      exact hall tx htx
    constructor
    · rw [if_neg hpast, if_pos (hany.2 (Option.some_ne_none entry))]
    · exact of_stored hconsistent hblock hpast hstored (haccounts.absorb hall) (hordinal entry rfl)

theorem deliverBurn (h : r.Gathered block past) (hfamily : BurnFamily block family)
    (honly : ∀ other ∈ past ++ [report], other.blockNumber = block → other ∈ family) :
    (r.deliverBurn report).2.Gathered block (past ++ [report]) ∧
      (report.blockNumber = block → (r.deliverBurn report).1 = .ok (answerAfter past report)) := by
  by_cases hblock : report.blockNumber = block
  · have hreport := honly report (List.mem_append_right past List.mem_cons_self) hblock
    have hpast : ∀ other ∈ past, other.blockNumber = block → other ∈ family := by
      intro other hother
      exact honly other (List.mem_append_left _ hother)
    obtain ⟨hanswer, hgathered⟩ := h.deliverBurn_own hfamily hpast hreport
    exact ⟨hgathered, fun _ => hanswer⟩
  · exact ⟨h.deliverBurn_other hblock, fun hown => absurd hown hblock⟩

theorem deliverBurns (h : r.Gathered block past) (hfamily : BurnFamily block family) {reports : List BurnEntry}
    (honly : ∀ other ∈ past ++ reports, other.blockNumber = block → other ∈ family) :
    (r.deliverBurns reports).2.Gathered block (past ++ reports) ∧
      ∀ (i : Nat) (report : BurnEntry), reports[i]? = some report → report.blockNumber = block →
        (r.deliverBurns reports).1[i]? = some ⟨report, .ok (answerAfter (past ++ reports.take i) report)⟩ := by
  induction reports generalizing r past with
  | nil =>
    rw [Reconciler.deliverBurns, List.append_nil]
    refine ⟨h, ?_⟩
    intro i report hreport
    cases hreport
  | cons first rest ih =>
    rw [List.append_cons] at honly
    have hfirst : ∀ other ∈ past ++ [first], other.blockNumber = block → other ∈ family := by
      intro other hother
      exact honly other (List.mem_append_left rest hother)
    obtain ⟨hnext, hanswer⟩ := h.deliverBurn hfamily hfirst
    obtain ⟨hgathered, hanswers⟩ := ih hnext honly
    rw [← List.append_cons] at hgathered
    refine ⟨hgathered, ?_⟩
    intro i report hreport hown
    cases i with
    | zero =>
      cases hreport
      rw [List.take_zero, List.append_nil, ← hanswer hown]
      rfl
    | succ i =>
      have hlater := hanswers i report hreport hown
      rw [← List.append_cons] at hlater
      exact hlater

end Gathered

structure SumsUp (r : Reconciler) (block : UInt64) (family reports : List BurnEntry) : Prop where
  answers : ∀ (i : Nat) (report : BurnEntry), reports[i]? = some report → report.blockNumber = block →
    (r.deliverBurns reports).1[i]? = some ⟨report, .ok (answerAfter (reports.take i) report)⟩
  accounts : Accounts ((r.deliverBurns reports).2.stored? block) family
  placed : ∀ entry ∈ (r.deliverBurns reports).2.stored? block,
    entry.blockNumber = block ∧ Ordinal.ofPosition (.ofTransaction block 0) = .ok entry.ordinal

theorem sumsUp_deliverBurns (hr : r.burns.store.Consistent) (hnone : r.stored? block = none)
    (hfamily : BurnFamily block family) {reports : List BurnEntry} (h : Covers reports block family) :
    r.SumsUp block family reports := by
  obtain ⟨hgathered, hanswers⟩ := (Gathered.start hr hnone).deliverBurns hfamily h.only
  rw [List.nil_append] at hgathered
  have hmem : ∀ report, report ∈ distinctFor block reports ↔ report ∈ family := by
    intro report
    rw [mem_distinctFor]
    constructor
    · intro hreport
      exact h.only report hreport.1 hreport.2
    · intro hreport
      exact ⟨h.each report hreport, hfamily.blockNumber_eq hreport⟩
  have hdistinct : (distinctFor block reports).Nodup := by
    apply nodup_of_disjoint hgathered.accounts.disjoint
    intro report hreport
    exact hfamily.nonempty report ((hmem report).1 hreport)
  have hperm : (distinctFor block reports).Perm family :=
    (List.perm_ext_iff_of_nodup hdistinct (nodup_of_disjoint hfamily.disjoint hfamily.nonempty)).2 hmem
  constructor
  · exact hanswers
  · exact hgathered.accounts.of_perm hperm
  · intro entry hentry
    exact ⟨blockNumber_of_stored? hgathered.consistent hentry, hgathered.ordinal entry hentry⟩

theorem SumsUp.stored?_eq {r' : Reconciler} {reports reports' : List BurnEntry}
    (h : r.SumsUp block family reports) (h' : r'.SumsUp block family reports') :
    (r.deliverBurns reports).2.stored? block = (r'.deliverBurns reports').2.stored? block := by
  have haccounts := h.accounts
  have haccounts' := h'.accounts
  have hplaced := h.placed
  have hplaced' := h'.placed
  have hnone := haccounts.isNone_iff.trans haccounts'.isNone_iff.symm
  cases hentry : (r.deliverBurns reports).2.stored? block with
  | none => exact (hnone.1 hentry).symm
  | some entry =>
    cases hother : (r'.deliverBurns reports').2.stored? block with
    | none =>
      rw [hnone.2 hother] at hentry
      cases hentry
    | some other =>
      rw [hentry] at haccounts hplaced
      rw [hother] at haccounts' hplaced'
      obtain ⟨hamount, htxs⟩ := haccounts.entry_unique haccounts'
      obtain ⟨hblock, hordinal⟩ := hplaced entry rfl
      obtain ⟨hblock', hordinal'⟩ := hplaced' other rfl
      rw [hordinal, Except.ok.injEq] at hordinal'
      rw [BurnEntry.ext (hblock.trans hblock'.symm) hamount htxs hordinal']

/--
Reports for a block that have transactions and share none leave the same entry whatever the order in which they
arrive, however often each of them does and whatever is reported for other blocks meanwhile.
-/
theorem deliverBurns_of_family {r r' : Reconciler} {block : UInt64} {family reports reports' : List BurnEntry}
    (hr : r.burns.store.Reachable) (hr' : r'.burns.store.Reachable) (hnone : r.stored? block = none)
    (hnone' : r'.stored? block = none) (hfamily : BurnFamily block family) (h : Covers reports block family)
    (h' : Covers reports' block family) :
    r.SumsUp block family reports ∧ r'.SumsUp block family reports' ∧
      (r.deliverBurns reports).2.stored? block = (r'.deliverBurns reports').2.stored? block := by
  have hsums := sumsUp_deliverBurns hr.consistent hnone hfamily h
  have hsums' := sumsUp_deliverBurns hr'.consistent hnone' hfamily h'
  exact ⟨hsums, hsums', hsums.stored?_eq hsums'⟩

theorem burnFamily_reports : BurnFamily 10 [smallReport, largeReport] := by
  constructor
  · simp only [List.forall_mem_cons]
    refine ⟨⟨.saturate 5, [burnHash 1], rfl⟩, ⟨.saturate (Amount.max - 1), [burnHash 3, burnHash 2], rfl⟩, ?_⟩
    intro report hreport
    cases hreport
  · decide
  · rw [List.pairwise_pair]
    intro tx hsmall hlarge
    exact smallReport_disjoint tx hlarge hsmall

theorem deliverBurns_of_family_saturating :
    let plain := create 6 none
    let cached := create 6 (some (2, 2))
    let reports := [largeReport, otherReport, smallReport, largeReport]
    let reports' := [smallReport, smallReport, largeReport]
    Covers reports 10 [smallReport, largeReport] ∧ Covers reports' 10 [smallReport, largeReport] ∧
    (plain.deliverBurns reports).1[3]? = some ⟨largeReport, .ok .alreadyApplied⟩ ∧
    (plain.deliverBurns reports).2.stored? 10 = (cached.deliverBurns reports').2.stored? 10 ∧
    ∃ entry, (plain.deliverBurns reports).2.stored? 10 = some entry ∧ entry.amount.toNat = Amount.max := by
  intro plain cached reports reports'
  have hcovers : Covers reports 10 [smallReport, largeReport] := ⟨by decide, by decide⟩
  have hcovers' : Covers reports' 10 [smallReport, largeReport] := ⟨by decide, by decide⟩
  have hplain : plain.burns.store.Reachable := .empty
  have hcached : cached.burns.store.Reachable := .empty
  obtain ⟨hsums, _, hsame⟩ :=
    deliverBurns_of_family hplain hcached rfl rfl burnFamily_reports hcovers hcovers'
  refine ⟨hcovers, hcovers', hsums.answers 3 largeReport rfl rfl, hsame, ?_⟩
  have hsome : (plain.deliverBurns reports).2.stored? 10 ≠ none := by
    rw [Ne, hsums.accounts.isNone_iff]
    exact List.cons_ne_nil _ _
  obtain ⟨entry, hentry⟩ := Option.ne_none_iff_exists'.1 hsome
  refine ⟨entry, hentry, ?_⟩
  rw [hsums.accounts.amount entry hentry]
  decide

end Reconciler

end ChainIndex
