import ChainIndex.Proofs.Store.Scans

/-!
This module contains the plainest store of records, which keeps one record under the text of each key and
sorts them when it is asked to, and the proof that a store in memory gives the same answers after the same
writes, because its two maps always hold the same keys.
-/

namespace ChainIndex

variable {σ ρ κ : Type} [RecordKey κ] [Record ρ κ]

open Cache (keyText)

def SortOrder.precedes : SortOrder → SortKey → SortKey → Bool
  | ascending, a, b => a < b
  | descending, a, b => b < a

namespace SortOrder

variable {order : SortOrder} {a b c : SortKey}

theorem not_precedes_of_precedes (h : order.precedes a b = true) : order.precedes b a = false := by
  cases order with
  | ascending => exact decide_eq_false (Std.not_gt_of_lt (of_decide_eq_true h))
  | descending => exact decide_eq_false (Std.not_gt_of_lt (of_decide_eq_true h))

theorem not_precedes_or (order : SortOrder) (a b : SortKey) :
    order.precedes b a = false ∨ order.precedes a b = false := by
  cases hba : order.precedes b a with
  | false =>
    left
    rfl
  | true =>
    right
    exact not_precedes_of_precedes hba

theorem not_precedes_trans (hba : order.precedes b a = false) (hcb : order.precedes c b = false) :
    order.precedes c a = false := by
  cases order with
  | ascending =>
    have hab := Std.not_lt.1 (of_decide_eq_false hba)
    have hbc := Std.not_lt.1 (of_decide_eq_false hcb)
    exact decide_eq_false (Std.not_lt.2 (Std.le_trans hab hbc))
  | descending =>
    have hab := Std.not_lt.1 (of_decide_eq_false hba)
    have hbc := Std.not_lt.1 (of_decide_eq_false hcb)
    exact decide_eq_false (Std.not_lt.2 (Std.le_trans hbc hab))

theorem eq_of_not_precedes (hab : order.precedes a b = false) (hba : order.precedes b a = false) : a = b := by
  cases order with
  | ascending =>
    exact Std.le_antisymm (Std.not_lt.1 (of_decide_eq_false hba)) (Std.not_lt.1 (of_decide_eq_false hab))
  | descending =>
    exact Std.le_antisymm (Std.not_lt.1 (of_decide_eq_false hab)) (Std.not_lt.1 (of_decide_eq_false hba))

end SortOrder

/--
A store that is one map, from the texts of the keys to the records.
-/
structure Table (ρ : Type) where
  entries : OrderedMap String ρ

namespace Table

def empty : Table ρ :=
  ⟨.empty⟩

def size (t : Table ρ) : Nat :=
  t.entries.size

def find? (t : Table ρ) (key : String) : Option ρ :=
  t.entries.get? key

def records (t : Table ρ) : List ρ :=
  t.entries.toList.map Prod.snd

def replace (t : Table ρ) (r : ρ) : Table ρ :=
  ⟨t.entries.insert (keyText r) r⟩

def settled (t : Table ρ) (r : ρ) : ρ :=
  match t.find? (keyText r) with
  | some stored => Record.setOrdinal (Record.ordinal stored) r
  | none => r

def upsert (t : Table ρ) (r : ρ) : Except IndexError (UpsertOutcome × ρ) × Table ρ :=
  let outcome := if (t.find? (keyText r)).isSome then .updated else .inserted
  (.ok (outcome, t.settled r), t.replace (t.settled r))

def merge (t : Table ρ) (key : κ) (plan : Planner ρ) : Except IndexError (Applied ρ) × Table ρ :=
  let text := RecordKey.encode key
  let previous := t.find? text
  match plan previous with
  | .error e => (.error e, t)
  | .ok write =>
    match write.foreignKey? text with
    | some other => (.error (.internal s!"merge for `{text}` tried to write `{other}`"), t)
    | none =>
      match write with
      | .skip => (.ok ⟨previous, .skip⟩, t)
      | .put r => (.ok ⟨previous, .put (t.settled r)⟩, t.replace (t.settled r))
      | .replace r => (.ok ⟨previous, .replace r⟩, t.replace r)

def matching (t : Table ρ) (f : Filter) : List ρ :=
  t.records.filter fun r => f.accepts (Record.toJson r)

def count (t : Table ρ) (f : Filter) : Except IndexError Nat := do
  f.ensureValid
  return (t.matching f).length

def ordinalIn (t : Table ρ) (key : κ) (f : Filter) : Except IndexError (Option Ordinal) := do
  f.ensureValid
  match t.find? (RecordKey.encode key) with
  | some r => return if f.accepts (Record.toJson r) then some (Record.ordinal r) else none
  | none => return none

def inOrder (order : SortOrder) (x y : ρ) : Bool :=
  !order.precedes (SortKey.ofRecord y) (SortKey.ofRecord x)

def sorted (order : SortOrder) (l : List ρ) : List ρ :=
  l.mergeSort (inOrder order)

def isPast (range : ScanRange) (r : ρ) : Bool :=
  match range.after with
  | some place => range.order.precedes place (SortKey.ofRecord r)
  | none => true

def scan (t : Table ρ) (f : Filter) (range : ScanRange) (limit : Nat) : Except IndexError (List ρ) := do
  f.ensureValid
  return (sorted range.order ((t.matching f).filter (isPast range))).take limit

instance : RecordStore (Table ρ) ρ κ where
  lookup t key := .ok (t.find? (RecordKey.encode key))
  ordinalIn := ordinalIn
  scan := scan
  count := count
  upsert := upsert
  merge := merge

theorem find?_replace_self (t : Table ρ) (r : ρ) : (t.replace r).find? (keyText r) = some r := by
  apply OrderedMap.get?_insert_self

theorem find?_replace_of_ne (t : Table ρ) {r : ρ} {key : String} (h : key ≠ keyText r) :
    (t.replace r).find? key = t.find? key := by
  apply OrderedMap.get?_insert_of_ne
  exact h

theorem settled_eq (t : Table ρ) (r : ρ) : t.settled r = MemoryStore.keepOrdinal (t.find? (keyText r)) r := by
  unfold settled MemoryStore.keepOrdinal
  cases t.find? (keyText r) <;> rfl

theorem inOrder_iff {order : SortOrder} {x y : ρ} :
    inOrder order x y ↔ order.precedes (SortKey.ofRecord y) (SortKey.ofRecord x) = false := by
  unfold inOrder
  rw [Bool.not_eq_true']

theorem pairwise_sorted (order : SortOrder) (l : List ρ) :
    (sorted order l).Pairwise fun x y => inOrder order x y := by
  apply List.pairwise_mergeSort
  · intro x y z hxy hyz
    rw [inOrder_iff] at hxy hyz ⊢
    exact SortOrder.not_precedes_trans hxy hyz
  · intro x y
    rw [Bool.or_eq_true, inOrder_iff, inOrder_iff]
    apply SortOrder.not_precedes_or

theorem sorted_eq_of_perm {order : SortOrder} {l m : List ρ} (h : l.Perm m)
    (hl : l.Pairwise fun x y => order.precedes (SortKey.ofRecord x) (SortKey.ofRecord y))
    (hkey : ∀ x ∈ l, ∀ y ∈ l, keyText x = keyText y → x = y) : sorted order m = l := by
  have hperm : (sorted order m).Perm l := (List.mergeSort_perm m _).trans h.symm
  have hin : l.Pairwise fun x y => inOrder order x y := by
    apply hl.imp
    intro x y hxy
    rw [inOrder_iff]
    exact SortOrder.not_precedes_of_precedes hxy
  apply List.Perm.eq_of_pairwise _ (pairwise_sorted order m) hin hperm
  intro x y hx hy hxy hyx
  rw [inOrder_iff] at hxy hyx
  have hsame := SortOrder.eq_of_not_precedes hyx hxy
  exact hkey x (hperm.mem_iff.1 hx) y hy (ofRecord_eq_iff.1 hsame).2

theorem isPast_eq (range : ScanRange) (r : ρ) : isPast range r = range.admits (SortKey.ofRecord r) := by
  obtain ⟨after, order⟩ := range
  unfold isPast ScanRange.admits
  cases after with
  | none => rfl
  | some place => cases order <;> rfl

end Table

inductive Operation (ρ κ : Type) where
  | upsert (record : ρ)
  | merge (key : κ) (plan : Planner ρ)

inductive Answer (ρ : Type) where
  | upserted (answer : Except IndexError (UpsertOutcome × ρ))
  | merged (answer : Except IndexError (Applied ρ))

namespace RecordStore

variable [RecordStore σ ρ κ]

def perform (store : σ) : Operation ρ κ → Answer ρ × σ
  | .upsert r => (.upserted (upsert store r).1, (upsert store r).2)
  | .merge key plan => (.merged (merge store key plan).1, (merge store key plan).2)

def performAll (store : σ) : List (Operation ρ κ) → List (Answer ρ) × σ
  | [] => ([], store)
  | operation :: rest =>
    let (answer, store) := perform store operation
    let (answers, store) := performAll store rest
    (answer :: answers, store)

end RecordStore

namespace MemoryStore

structure Represents (s : MemoryStore ρ) (t : Table ρ) : Prop where
  consistent : s.Consistent
  find?_eq : ∀ key, s.find? key = t.find? key

theorem represents_empty : (empty : MemoryStore ρ).Represents .empty := by
  constructor
  · exact consistent_empty
  · intro key
    rfl

namespace Represents

variable {s : MemoryStore ρ} {t : Table ρ}

theorem overwrite (h : s.Represents t) (r : ρ) : (s.overwrite r).Represents (t.replace r) := by
  constructor
  · exact h.consistent.overwrite r
  · intro key
    by_cases hkey : key = keyText r
    · rw [hkey, s.find?_overwrite_self, t.find?_replace_self]
    · rw [s.find?_overwrite_of_ne hkey, t.find?_replace_of_ne hkey, h.find?_eq]

theorem keepOrdinal_eq (h : s.Represents t) (r : ρ) : keepOrdinal (s.find? (keyText r)) r = t.settled r := by
  rw [h.find?_eq, Table.settled_eq]

theorem upsert (h : s.Represents t) (r : ρ) :
    (s.upsert r).1 = (t.upsert r).1 ∧ (s.upsert r).2.Represents (t.upsert r).2 := by
  unfold Table.upsert
  rw [upsert_eq, h.keepOrdinal_eq, h.find?_eq]
  exact ⟨rfl, h.overwrite _⟩

theorem merge (h : s.Represents t) (key : κ) (plan : Planner ρ) :
    (s.merge key plan).1 = (t.merge key plan).1 ∧ (s.merge key plan).2.Represents (t.merge key plan).2 := by
  unfold Table.merge
  dsimp only
  rw [← h.find?_eq]
  cases hplan : plan (s.find? (RecordKey.encode key)) with
  | error e =>
    rw [merge_of_error hplan]
    exact ⟨rfl, h⟩
  | ok w =>
    dsimp only
    cases hforeign : w.foreignKey? (RecordKey.encode key) with
    | some other =>
      rw [merge_of_foreign hplan hforeign]
      exact ⟨rfl, h⟩
    | none =>
      rw [foreignKey?_eq_none_iff] at hforeign
      cases w with
      | skip =>
        rw [merge_of_skip hplan]
        exact ⟨rfl, h⟩
      | put r =>
        have hkey := hforeign r rfl
        rw [merge_of_put hplan hkey, h.keepOrdinal_eq, hkey]
        exact ⟨rfl, h.overwrite _⟩
      | replace r =>
        have hkey := hforeign r rfl
        rw [merge_of_replace hplan hkey, hkey]
        exact ⟨rfl, h.overwrite r⟩

theorem perform (h : s.Represents t) (operation : Operation ρ κ) :
    (RecordStore.perform s operation).1 = (RecordStore.perform t operation).1 ∧
      (RecordStore.perform s operation).2.Represents (RecordStore.perform t operation).2 := by
  cases operation with
  | upsert r =>
    obtain ⟨hanswer, hrest⟩ := h.upsert r
    exact ⟨congrArg Answer.upserted hanswer, hrest⟩
  | merge key plan =>
    obtain ⟨hanswer, hrest⟩ := h.merge key plan
    exact ⟨congrArg Answer.merged hanswer, hrest⟩

theorem performAll (h : s.Represents t) (operations : List (Operation ρ κ)) :
    (RecordStore.performAll s operations).1 = (RecordStore.performAll t operations).1 ∧
      (RecordStore.performAll s operations).2.Represents (RecordStore.performAll t operations).2 := by
  induction operations generalizing s t with
  | nil => exact ⟨rfl, h⟩
  | cons operation rest ih =>
    obtain ⟨hanswer, hnext⟩ := h.perform operation
    obtain ⟨hanswers, hrest⟩ := ih hnext
    refine ⟨?_, hrest⟩
    exact congr (congrArg List.cons hanswer) hanswers

theorem mem_records_iff (h : s.Represents t) {r : ρ} : r ∈ t.records ↔ t.find? (keyText r) = some r := by
  unfold Table.records
  rw [List.mem_map]
  constructor
  · rintro ⟨⟨key, x⟩, hx, rfl⟩
    have hfind : t.find? key = some x := OrderedMap.mem_toList_iff.1 hx
    rw [← h.find?_eq] at hfind
    rw [h.consistent.key_of_find? hfind, ← h.find?_eq, hfind]
  · intro hr
    exact ⟨(keyText r, r), OrderedMap.mem_toList_iff.2 hr, rfl⟩

theorem nodup_records (h : s.Represents t) : t.records.Nodup := by
  unfold Table.records
  apply List.pairwise_map.2
  apply t.entries.ascending.imp_of_mem
  intro x y hx hy hlt heq
  have hx : t.find? x.1 = some x.2 := OrderedMap.mem_toList_iff.1 hx
  have hy : t.find? y.1 = some y.2 := OrderedMap.mem_toList_iff.1 hy
  rw [← h.find?_eq] at hx hy
  rw [← h.consistent.key_of_find? hx, ← h.consistent.key_of_find? hy, heq] at hlt
  exact Std.lt_irrefl hlt

theorem perm_records (h : s.Represents t) : s.records.Perm t.records := by
  apply (List.perm_ext_iff_of_nodup h.consistent.ranked_records.nodup h.nodup_records).2
  intro r
  rw [h.consistent.mem_records_iff, h.mem_records_iff, h.find?_eq]

theorem perm_matching (h : s.Represents t) (f : Filter) : (s.matching f).Perm (t.matching f) :=
  h.perm_records.filter _

theorem size_eq (h : s.Represents t) : s.size = t.size := by
  have hrecords := h.perm_records.length_eq
  unfold Table.records at hrecords
  rw [records_eq, List.length_reverse, List.length_map, List.length_map] at hrecords
  rw [← h.consistent.length_byPlace, hrecords]
  rfl

theorem count_eq (h : s.Represents t) (f : Filter) : s.count f = t.count f := by
  unfold Table.count
  cases hf : f.ensureValid with
  | error e =>
    unfold count
    rw [hf]
    rfl
  | ok _ =>
    rw [MemoryStore.count_eq s hf, (h.perm_matching f).length_eq]
    rfl

theorem ordinalIn_eq (h : s.Represents t) (key : κ) (f : Filter) : s.ordinalIn key f = t.ordinalIn key f := by
  unfold ordinalIn Table.ordinalIn
  rw [h.find?_eq]
  cases f.ensureValid with
  | error e => rfl
  | ok _ =>
    cases t.find? (RecordKey.encode key) with
    | none => rfl
    | some r =>
      by_cases hr : accepts f r
      · rw [Option.filter_some_pos hr]
        unfold accepts at hr
        dsimp only [Bind.bind, Except.bind]
        rw [if_pos hr]
        rfl
      · rw [Option.filter_some_neg (eq_false_of_ne_true hr)]
        unfold accepts at hr
        dsimp only [Bind.bind, Except.bind]
        rw [if_neg hr]
        rfl

theorem scan_eq (h : s.Represents t) (f : Filter) (range : ScanRange) (limit : Nat) :
    s.scan f range limit = t.scan f range limit := by
  unfold Table.scan
  cases hf : f.ensureValid with
  | error e =>
    unfold scan
    rw [hf]
    rfl
  | ok _ =>
    have hranked := (h.consistent.ranked_matching f).filter (Table.isPast range)
    have hperm := (h.perm_matching f).filter (Table.isPast range)
    have hkey : ∀ x ∈ (s.matching f).filter (Table.isPast range), ∀ y ∈ (s.matching f).filter (Table.isPast range),
        keyText x = keyText y → x = y := by
      intro x hx y hy heq
      have hx := (h.consistent.mem_matching_iff.1 (List.mem_filter.1 hx).1).1
      have hy := (h.consistent.mem_matching_iff.1 (List.mem_filter.1 hy).1).1
      rw [heq, hy] at hx
      exact (Option.some.inj hx).symm
    rw [h.consistent.scan_eq hf]
    simp only [← Table.isPast_eq]
    obtain ⟨after, order⟩ := range
    cases order with
    | descending =>
      rw [Table.sorted_eq_of_perm hperm _ hkey]
      · rfl
      · simpa [SortOrder.precedes] using hranked.descending
    | ascending =>
      rw [Table.sorted_eq_of_perm ((List.reverse_perm _).trans hperm)]
      · rfl
      · simpa [SortOrder.precedes, List.pairwise_reverse] using hranked.descending
      · simpa using hkey

end Represents

/--
Whatever is written to an empty store in memory, its answers are those of the plain table. The ordinals that
it keeps by key are those that its records are filed under, one record a key.
-/
theorem performAll_empty_eq (operations : List (Operation ρ κ)) :
    let s := (RecordStore.performAll (empty : MemoryStore ρ) operations).2
    let t := (RecordStore.performAll (Table.empty : Table ρ) operations).2
    (RecordStore.performAll (empty : MemoryStore ρ) operations).1 =
      (RecordStore.performAll (Table.empty : Table ρ) operations).1 ∧
    (∀ e ∈ s.byPlace.toList, e.1 = SortKey.ofRecord e.2) ∧
    (s.byPlace.toList.map fun e => (e.1.key, e.1.ordinal)).Perm s.ordinals.toList ∧
    (∀ key : κ, RecordStore.lookup s key = RecordStore.lookup t key) ∧
    s.size = t.size ∧ RecordStore.count s .all = .ok t.size ∧
    ∀ f : Filter, RecordStore.count s f = RecordStore.count t f ∧
      (∀ key : κ, RecordStore.ordinalIn s key f = RecordStore.ordinalIn t key f) ∧
      ∀ (range : ScanRange) (limit : Nat), RecordStore.scan s f range limit = RecordStore.scan t f range limit := by
  obtain ⟨hanswers, h⟩ := (represents_empty (ρ := ρ)).performAll operations
  intro s t
  have hs : s.Consistent := h.consistent
  refine ⟨hanswers, fun e he => hs.place_of_mem he, hs.perm_index, ?_, h.size_eq, ?_, ?_⟩
  · intro key
    exact congrArg Except.ok (h.find?_eq (RecordKey.encode key))
  · have hcount : RecordStore.count s .all = _ := s.count_eq rfl
    rw [hcount, s.matching_all, h.perm_records.length_eq]
    unfold Table.records Table.size OrderedMap.size
    rw [List.length_map]
  · intro f
    exact ⟨h.count_eq f, fun key => h.ordinalIn_eq key f, h.scan_eq f⟩

end MemoryStore

end ChainIndex
