import ChainIndex.Listing.Load
import ChainIndex.Proofs.Store.Scans

/-!
This module contains the stretches of a listing that pages show, and the proof that a store in memory
loads them: the record past the end of a page is read and dropped again, and a page that is read upward
comes out with its top first.
-/

namespace ChainIndex

variable {ρ κ : Type} [RecordKey κ] [Record ρ κ]

/--
The page that shows a listing from its record number `a` to before its record number `b`.
-/
def Page.slice (l : List ρ) (f : Filter) (a b : Nat) : Page ρ :=
  let shown := (l.take b).drop a
  { records := shown
    total := l.length
    first := shown.head?.map Record.ordinal
    last := shown.getLast?.map Record.ordinal
    isStart := a = 0
    isEnd := b = l.length
    filter := f }

theorem take_append_cons_drop {l : List ρ} {i : Nat} {r : ρ} (hi : l[i]? = some r) :
    l.take i ++ r :: l.drop (i + 1) = l := by
  obtain ⟨hlt, hr⟩ := List.getElem?_eq_some_iff.1 hi
  rw [← hr, List.getElem_cons_drop, List.take_append_drop]

theorem drop_take_min (l : List ρ) (a n : Nat) : (l.take (min (a + n) l.length)).drop a = (l.drop a).take n := by
  have htake : l.take (min (a + n) l.length) = l.take (a + n) := by
    rw [List.take_eq_take_iff]
    omega
  rw [htake, List.drop_take, Nat.add_sub_cancel_left]

theorem drop_take_sub {l : List ρ} {b : Nat} (hb : b ≤ l.length) (n : Nat) :
    (l.take b).drop (b - n) = ((l.take b).reverse.take n).reverse := by
  rw [List.take_reverse, List.reverse_reverse, List.length_take, Nat.min_eq_left hb]

namespace Ranked

theorem lt_of_mem_take {l : List ρ} (h : Ranked l) {i : Nat} {r x : ρ} (hi : l[i]? = some r)
    (hx : x ∈ l.take i) : SortKey.ofRecord r < SortKey.ofRecord x := by
  have hd := h.descending
  rw [← take_append_cons_drop hi] at hd
  exact (List.pairwise_append.1 hd).2.2 x hx r List.mem_cons_self

theorem lt_of_mem_drop {l : List ρ} (h : Ranked l) {i : Nat} {r x : ρ} (hi : l[i]? = some r)
    (hx : x ∈ l.drop (i + 1)) : SortKey.ofRecord x < SortKey.ofRecord r := by
  have hd := h.descending
  rw [← take_append_cons_drop hi] at hd
  exact List.rel_of_pairwise_cons (List.pairwise_append.1 hd).2.1 hx

theorem filter_below {l : List ρ} (h : Ranked l) {i : Nat} {r : ρ} (hi : l[i]? = some r) :
    (l.filter fun x => SortKey.ofRecord x < SortKey.ofRecord r) = l.drop (i + 1) := by
  have htake : ((l.take i).filter fun x => SortKey.ofRecord x < SortKey.ofRecord r) = [] := by
    rw [List.filter_eq_nil_iff]
    intro x hx
    simpa using Std.not_gt_of_lt (h.lt_of_mem_take hi hx)
  have hdrop : ((l.drop (i + 1)).filter fun x => SortKey.ofRecord x < SortKey.ofRecord r) =
      l.drop (i + 1) := by
    rw [List.filter_eq_self]
    intro x hx
    simpa using h.lt_of_mem_drop hi hx
  conv =>
    lhs
    rw [← take_append_cons_drop hi]
  rw [List.filter_append, htake, List.nil_append, List.filter_cons_of_neg, hdrop]
  simpa using Std.lt_irrefl (a := SortKey.ofRecord r)

theorem filter_above {l : List ρ} (h : Ranked l) {i : Nat} {r : ρ} (hi : l[i]? = some r) :
    (l.filter fun x => SortKey.ofRecord r < SortKey.ofRecord x) = l.take i := by
  have htake : ((l.take i).filter fun x => SortKey.ofRecord r < SortKey.ofRecord x) = l.take i := by
    rw [List.filter_eq_self]
    intro x hx
    simpa using h.lt_of_mem_take hi hx
  have hdrop : ((l.drop (i + 1)).filter fun x => SortKey.ofRecord r < SortKey.ofRecord x) = [] := by
    rw [List.filter_eq_nil_iff]
    intro x hx
    simpa using Std.not_gt_of_lt (h.lt_of_mem_drop hi hx)
  conv =>
    lhs
    rw [← take_append_cons_drop hi]
  rw [List.filter_append, htake, List.filter_cons_of_neg, hdrop, List.append_nil]
  simpa using Std.lt_irrefl (a := SortKey.ofRecord r)

end Ranked

namespace Page

omit [Record ρ κ] [RecordKey κ] in
theorem probe_eq {n : Nat} (hn : n < ScanRange.maxLimit) : probe n = n + 1 := by
  unfold probe
  omega

omit [RecordKey κ] in
theorem ofScan_down {l : List ρ} {f : Filter} {a n : Nat} {after : Option SortKey} (ha : a ≤ l.length)
    (hn : n < ScanRange.maxLimit) :
    ofScan ((l.drop a).take (probe n)) l.length f ⟨.down, after, decide (a = 0), false⟩ n =
      slice l f a (min (a + n) l.length) := by
  have hend : decide (((l.drop a).take (n + 1)).length < n + 1) =
      decide (min (a + n) l.length = l.length) := by
    rw [List.length_take, List.length_drop, decide_eq_decide]
    omega
  unfold ofScan slice ofRecords
  dsimp only
  rw [probe_eq hn, drop_take_min, hend, List.take_take, Nat.min_eq_left (Nat.le_succ n), Bool.false_or]

omit [RecordKey κ] in
theorem ofScan_up {l : List ρ} {f : Filter} {b n : Nat} {after : Option SortKey} (hb : b ≤ l.length)
    (hn : n < ScanRange.maxLimit) :
    ofScan ((l.take b).reverse.take (probe n)) l.length f ⟨.up, after, false, decide (b = l.length)⟩ n =
      slice l f (b - n) b := by
  have hlen : (l.take b).length = b := by
    rw [List.length_take]
    omega
  have hstart : decide (((l.take b).reverse.take (n + 1)).length < n + 1) = decide (b - n = 0) := by
    rw [List.length_take, List.length_reverse, hlen, decide_eq_decide]
    omega
  unfold ofScan
  dsimp only
  rw [probe_eq hn, reverse_ofRecords, List.take_take, Nat.min_eq_left (Nat.le_succ n),
    ← drop_take_sub hb, hstart, Bool.false_or]
  rfl

end Page

theorem natAbs_lt_maxLimit (count : Int32) : count.toInt.natAbs < ScanRange.maxLimit := by
  have hlt := count.toInt_lt
  have hle := count.le_toInt
  unfold ScanRange.maxLimit UInt64.size
  omega

theorem PageRequest.ofCount_of_pos {count : Int32} (h : 0 < count.toInt) :
    ofCount count = .ok ⟨count.toInt.natAbs, .down⟩ := by
  unfold ofCount
  rw [if_neg (by omega), if_pos h]

theorem PageRequest.ofCount_of_neg {count : Int32} (h : count.toInt < 0) :
    ofCount count = .ok ⟨count.toInt.natAbs, .up⟩ := by
  unfold ofCount
  rw [if_neg (by omega), if_neg (by omega)]

namespace MemoryStore

variable {s : MemoryStore ρ}

theorem load_eq {f : Filter} (hf : f.ensureValid = .ok ()) {w : Window} {n : Nat} {found : List ρ}
    (hfound : s.scan f w.scanRange (Page.probe n) = .ok found) :
    Page.load s f w n = .ok (Page.ofScan found (s.matching f).length f w n) := by
  have hscan : RecordStore.scan s f w.scanRange (Page.probe n) = .ok found := hfound
  have hcount : RecordStore.count s f = _ := count_eq s hf
  unfold Page.load
  rw [hscan, hcount]
  rfl

namespace Consistent

theorem load_down (h : s.Consistent) {f : Filter} (hf : f.ensureValid = .ok ()) (after : Option SortKey)
    {a n : Nat} (hn : n < ScanRange.maxLimit) (ha : a ≤ (s.matching f).length)
    (hadmits : ((s.matching f).filter fun x => (⟨after, .descending⟩ : ScanRange).admits (SortKey.ofRecord x)) =
      (s.matching f).drop a) :
    Page.load s f ⟨.down, after, decide (a = 0), false⟩ n =
      .ok (Page.slice (s.matching f) f a (min (a + n) (s.matching f).length)) := by
  have hfound := h.scan_eq hf ⟨after, .descending⟩ (Page.probe n)
  dsimp only at hfound
  rw [hadmits] at hfound
  rw [load_eq hf hfound, Page.ofScan_down ha hn]

theorem load_up (h : s.Consistent) {f : Filter} (hf : f.ensureValid = .ok ()) (after : Option SortKey)
    {b n : Nat} (hn : n < ScanRange.maxLimit) (hb : b ≤ (s.matching f).length)
    (hadmits : ((s.matching f).filter fun x => (⟨after, .ascending⟩ : ScanRange).admits (SortKey.ofRecord x)) =
      (s.matching f).take b) :
    Page.load s f ⟨.up, after, false, decide (b = (s.matching f).length)⟩ n =
      .ok (Page.slice (s.matching f) f (b - n) b) := by
  have hfound := h.scan_eq hf ⟨after, .ascending⟩ (Page.probe n)
  dsimp only at hfound
  rw [hadmits] at hfound
  rw [load_eq hf hfound, Page.ofScan_up hb hn]

theorem past_eq (h : s.Consistent) {f : Filter} (hf : f.ensureValid = .ok ()) {i : Nat} {r : ρ}
    (hi : (s.matching f)[i]? = some r) (direction : Direction) :
    Window.past s f (Cursor.ofRecord r) direction =
      .ok ⟨direction, some (SortKey.ofRecord r), false, false⟩ := by
  have hr := h.mem_matching_iff.1 (List.mem_of_getElem? hi)
  have hordinal : RecordStore.ordinalIn s (Cursor.ofRecord r).key f = .ok (some (Record.ordinal r)) := by
    have hfind : s.find? (RecordKey.encode (Cursor.ofRecord r).key) = some r := hr.1
    have hin : RecordStore.ordinalIn s (Cursor.ofRecord r).key f = s.ordinalIn (Cursor.ofRecord r).key f := rfl
    rw [hin]
    unfold ordinalIn
    rw [hf, hfind, Option.filter_some_pos hr.2]
    rfl
  unfold Window.past
  rw [hordinal]
  rfl

end Consistent

end MemoryStore

end ChainIndex
