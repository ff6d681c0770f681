import ChainIndex.Proofs.Listing.Ranking
import ChainIndex.Proofs.Store.Writes

/-!
This module contains what the scans and counts of a store in memory find: parts of one list, which runs
through the stored records from the top of their listing downward.
-/

namespace ChainIndex

namespace MemoryStore

variable {ρ κ : Type} [RecordKey κ] [Record ρ κ]

open Cache (keyText)

def records (s : MemoryStore ρ) : List ρ :=
  s.recordsIn ⟨none, .descending⟩

def matching (s : MemoryStore ρ) (f : Filter) : List ρ :=
  s.records.filter (accepts f)

omit [RecordKey κ] [Record ρ κ] in
theorem records_eq (s : MemoryStore ρ) : s.records = (s.byPlace.toList.map Prod.snd).reverse := by
  unfold records recordsIn
  have hall : s.byPlace.toList.filter (fun e => (⟨none, .descending⟩ : ScanRange).admits e.1) =
      s.byPlace.toList := List.filter_eq_self.2 fun _ _ => rfl
  rw [hall]

omit [RecordKey κ] in
theorem count_eq (s : MemoryStore ρ) {f : Filter} (hf : f.ensureValid = .ok ()) :
    s.count f = .ok (s.matching f).length := by
  unfold count matching
  rw [hf, records_eq, List.filter_reverse, List.length_reverse, ← List.countP_eq_length_filter,
    List.countP_map]
  rfl

namespace Consistent

variable {s : MemoryStore ρ}

theorem mem_records_iff (h : s.Consistent) {r : ρ} : r ∈ s.records ↔ s.find? (keyText r) = some r := by
  rw [records_eq, List.mem_reverse, List.mem_map, h.find?_eq_some_iff]
  constructor
  · rintro ⟨e, he, rfl⟩
    refine ⟨rfl, ?_⟩
    rw [← h.place_of_mem he]
    exact OrderedMap.mem_toList_iff.1 he
  · intro hr
    exact ⟨(SortKey.ofRecord r, r), OrderedMap.mem_toList_iff.2 hr.2, rfl⟩

theorem ranked_records (h : s.Consistent) : Ranked s.records := by
  have hdesc : s.records.Pairwise fun x y => SortKey.ofRecord y < SortKey.ofRecord x := by
    rw [records_eq, List.pairwise_reverse, List.pairwise_map]
    apply s.byPlace.ascending.imp_of_mem
    intro x y hx hy hxy
    rwa [← h.place_of_mem hx, ← h.place_of_mem hy]
  constructor
  · exact hdesc
  · apply hdesc.imp_of_mem
    intro x y hx hy hlt heq
    rw [h.mem_records_iff] at hx hy
    rw [heq, hy, Option.some.injEq] at hx
    rw [hx] at hlt
    exact Std.lt_irrefl hlt

theorem records_overwrite (h : s.Consistent) (r : ρ) : (s.overwrite r).records = settle r s.records := by
  apply (h.overwrite r).ranked_records.eq_of_mem_iff h.ranked_records.settle
  intro x
  rw [(h.overwrite r).mem_records_iff, mem_settle, h.mem_records_iff]
  by_cases hx : keyText x = keyText r
  · rw [hx, find?_overwrite_self]
    simp [eq_comm]
  · rw [find?_overwrite_of_ne _ hx]
    have hne : x ≠ r := by
      intro e
      rw [e] at hx
      exact hx rfl
    simp [hx, hne]

theorem recordsIn_eq (h : s.Consistent) (range : ScanRange) :
    s.recordsIn range =
      match range.order with
      | .descending => s.records.filter fun x => range.admits (SortKey.ofRecord x)
      | .ascending => (s.records.filter fun x => range.admits (SortKey.ofRecord x)).reverse := by
  have hin : (s.byPlace.toList.filter fun e => range.admits e.1).map Prod.snd =
      (s.byPlace.toList.map Prod.snd).filter fun x => range.admits (SortKey.ofRecord x) := by
    rw [List.filter_map]
    congr 1
    apply List.filter_congr
    intro e he
    rw [h.place_of_mem he]
    rfl
  unfold recordsIn
  dsimp only
  rw [hin, records_eq]
  cases range.order with
  | ascending => simp
  | descending => simp

theorem mem_matching_iff (h : s.Consistent) {f : Filter} {r : ρ} :
    r ∈ s.matching f ↔ s.find? (keyText r) = some r ∧ accepts f r := by
  unfold matching
  rw [List.mem_filter, h.mem_records_iff]

theorem ranked_matching (h : s.Consistent) (f : Filter) : Ranked (s.matching f) :=
  h.ranked_records.filter _

theorem scan_eq (h : s.Consistent) {f : Filter} (hf : f.ensureValid = .ok ()) (range : ScanRange) (limit : Nat) :
    s.scan f range limit = .ok (
      match range.order with
      | .descending => ((s.matching f).filter fun x => range.admits (SortKey.ofRecord x)).take limit
      | .ascending => ((s.matching f).filter fun x => range.admits (SortKey.ofRecord x)).reverse.take limit) := by
  unfold scan matching
  rw [hf, h.recordsIn_eq]
  cases range.order with
  | ascending =>
    dsimp only
    rw [List.filter_reverse, List.filter_filter, List.filter_filter]
    simp only [Bool.and_comm]
    rfl
  | descending =>
    dsimp only
    rw [List.filter_filter, List.filter_filter]
    simp only [Bool.and_comm]
    rfl

end Consistent

omit [RecordKey κ] in
theorem matching_all (s : MemoryStore ρ) : s.matching .all = s.records :=
  List.filter_eq_self.2 fun _ _ => rfl

end MemoryStore

end ChainIndex
