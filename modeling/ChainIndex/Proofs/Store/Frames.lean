import ChainIndex.Proofs.Store.Scans
import Mathlib.Data.List.Basic

/-!
This module contains what a write of one key leaves as it is in a store in memory: the records under all other
keys, and the order in which the scans come past them.
-/

namespace ChainIndex

variable {ρ κ : Type} [RecordKey κ] [Record ρ κ]

open Cache (keyText place)

theorem filter_place {r : ρ} {p : ρ → Bool} (hr : p r = false) (l : List ρ) :
    (place r l).filter p = l.filter p := by
  induction l with
  | nil =>
    rw [place, List.filter_cons_of_neg (by simp [hr])]
  | cons x l ih =>
    unfold place
    split
    · rw [List.filter_cons, List.filter_cons, ih]
    · rw [List.filter_cons_of_neg (by simp [hr])]

theorem filter_settle (r : ρ) (l : List ρ) :
    ((settle r l).filter fun x => keyText x ≠ keyText r) = l.filter fun x => keyText x ≠ keyText r := by
  unfold settle
  rw [filter_place (by simp), List.filter_filter]
  simp only [Bool.and_self]

namespace MemoryStore

/--
Two stores that differ in nothing but the record under one key. A scan of either runs through a list of its
own, from which it takes as many records as it may, and without the key the two lists are the same.
-/
structure Frame (key : κ) (s s' : MemoryStore ρ) : Prop where
  find? : ∀ other : κ, other ≠ key → s'.find? (RecordKey.encode other) = s.find? (RecordKey.encode other)
  scan : ∀ f range,
    (∃ e, ∀ limit, s.scan f range limit = .error e ∧ s'.scan f range limit = .error e) ∨
    ∃ l l' : List ρ,
      (∀ limit, s.scan f range limit = .ok (l.take limit) ∧ s'.scan f range limit = .ok (l'.take limit)) ∧
      (l.filter fun x => keyText x ≠ RecordKey.encode key) = l'.filter fun x => keyText x ≠ RecordKey.encode key

structure Wrote (key : κ) (previous : Option ρ) (r : ρ) (s s' : MemoryStore ρ) : Prop where
  before : s.find? (RecordKey.encode key) = previous
  after : s'.find? (RecordKey.encode key) = some r
  frame : Frame key s s'

omit [RecordKey κ] in
theorem scan_eq_take (s : MemoryStore ρ) {f : Filter} (hf : f.ensureValid = .ok ()) (range : ScanRange)
    (limit : Nat) : s.scan f range limit = .ok (((s.recordsIn range).filter (accepts f)).take limit) := by
  unfold scan
  rw [hf]
  rfl

omit [RecordKey κ] in
theorem scan_eq_error (s : MemoryStore ρ) {f : Filter} {e : IndexError} (hf : f.ensureValid = .error e)
    (range : ScanRange) (limit : Nat) : s.scan f range limit = .error e := by
  unfold scan
  rw [hf]
  rfl

theorem Consistent.filter_recordsIn_overwrite {s : MemoryStore ρ} (h : s.Consistent) (r : ρ) (range : ScanRange) :
    (((s.overwrite r).recordsIn range).filter fun x => keyText x ≠ keyText r) =
      (s.recordsIn range).filter fun x => keyText x ≠ keyText r := by
  have hrecords : ((s.overwrite r).records.filter fun x => keyText x ≠ keyText r) =
      s.records.filter fun x => keyText x ≠ keyText r := by
    rw [h.records_overwrite, filter_settle]
  rw [(h.overwrite r).recordsIn_eq, h.recordsIn_eq]
  cases range.order with
  | descending =>
    dsimp only
    rw [List.filter_comm, hrecords, List.filter_comm]
  | ascending =>
    dsimp only
    rw [List.filter_reverse, List.filter_reverse, List.filter_comm, hrecords, List.filter_comm]

theorem Frame.overwrite {s : MemoryStore ρ} (h : s.Consistent) {key : κ} {r : ρ}
    (hkey : keyText r = RecordKey.encode key) : Frame key s (s.overwrite r) := by
  constructor
  · intro other hne
    apply s.find?_overwrite_of_ne
    intro heq
    rw [hkey] at heq
    exact hne (RecordKey.encode_inj heq)
  · intro f range
    cases hf : f.ensureValid with
    | error e =>
      left
      refine ⟨e, ?_⟩
      intro limit
      exact ⟨s.scan_eq_error hf range limit, (s.overwrite r).scan_eq_error hf range limit⟩
    | ok _ =>
      right
      refine ⟨(s.recordsIn range).filter (accepts f), ((s.overwrite r).recordsIn range).filter (accepts f), ?_, ?_⟩
      · intro limit
        exact ⟨s.scan_eq_take hf range limit, (s.overwrite r).scan_eq_take hf range limit⟩
      · rw [← hkey, List.filter_comm, ← h.filter_recordsIn_overwrite, List.filter_comm]

theorem Wrote.overwrite {s : MemoryStore ρ} (h : s.Consistent) {key : κ} {r : ρ}
    (hkey : keyText r = RecordKey.encode key) :
    Wrote key (s.find? (RecordKey.encode key)) r s (s.overwrite r) := by
  constructor
  · rfl
  · rw [← hkey]
    exact s.find?_overwrite_self r
  · exact Frame.overwrite h hkey

end MemoryStore

end ChainIndex
