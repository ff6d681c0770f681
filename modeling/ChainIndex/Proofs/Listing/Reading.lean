import ChainIndex.Proofs.Listing.Pages

/-!
This module contains the order in which a client comes past the records of a listing, and what a page holds
that is answered while others write: the first records past its cursor, as they are when they are read.
-/

namespace ChainIndex

variable {ρ κ : Type} [RecordKey κ] [Record ρ κ]

open Cache (keyText)
open MemoryStore (accepts)

namespace Direction

def Before : Direction → SortKey → SortKey → Prop
  | down, a, b => b < a
  | up, a, b => a < b

theorem not_before_self (d : Direction) (a : SortKey) : ¬d.Before a a := by
  cases d with
  | down => exact Std.lt_irrefl
  | up => exact Std.lt_irrefl

theorem Before.trans {d : Direction} {a b c : SortKey} (hab : d.Before a b) (hbc : d.Before b c) :
    d.Before a c := by
  cases d with
  | down => exact Std.lt_trans hbc hab
  | up => exact Std.lt_trans hab hbc

theorem admits_iff {d : Direction} {after : Option SortKey} {a : SortKey} :
    (⟨after, d.scanOrder⟩ : ScanRange).admits a ↔ ∀ b, after = some b → d.Before b a := by
  unfold ScanRange.admits scanOrder Before
  cases after with
  | none => simp
  | some b => cases d <;> simp

end Direction

namespace Page

def reading (d : Direction) (p : Page ρ) : List ρ :=
  match d with
  | .down => p.records
  | .up => p.records.reverse

def stops (d : Direction) (p : Page ρ) : Bool :=
  match d with
  | .down => p.isEnd
  | .up => p.isStart

def next? (d : Direction) (p : Page ρ) : Option (Cursor κ) :=
  match d with
  | .down => p.lastCursor?
  | .up => p.firstCursor?

omit [RecordKey κ] in
theorem next?_eq (d : Direction) (p : Page ρ) : p.next? d = (p.reading d).getLast?.map Cursor.ofRecord := by
  unfold next? reading lastCursor? firstCursor?
  cases d with
  | down => rfl
  | up => simp

omit [RecordKey κ] in
theorem reading_ofScan (found : List ρ) (total : Nat) (f : Filter) (w : Window) (n : Nat) :
    (ofScan found total f w n).reading w.direction = found.take n := by
  unfold ofScan reading
  cases w.direction with
  | down => rfl
  | up =>
    dsimp only
    rw [reverse_ofRecords]
    exact List.reverse_reverse _

omit [RecordKey κ] in
theorem stops_ofScan (found : List ρ) (total : Nat) (f : Filter) {w : Window} (n : Nat)
    (hstart : w.direction = .up → w.isStart = false) (hend : w.direction = .down → w.isEnd = false) :
    (ofScan found total f w n).stops w.direction = decide (found.length < probe n) := by
  unfold ofScan stops
  cases hw : w.direction with
  | down =>
    dsimp only
    rw [hend hw, Bool.false_or]
  | up =>
    dsimp only
    rw [hstart hw, Bool.false_or]

end Page

def Direction.ofCount (count : Int32) : Direction :=
  if 0 < count.toInt then .down else .up

theorem PageRequest.eq_of_ofCount {count : Int32} {request : PageRequest} (h : ofCount count = .ok request) :
    request = ⟨count.toInt.natAbs, .ofCount count⟩ := by
  unfold ofCount at h
  rw [if_neg (ne_zero_of_ofCount h)] at h
  exact (Except.ok.inj h).symm

structure Ahead (d : Direction) (f : Filter) (after : Option SortKey) (s : MemoryStore ρ) (l : List ρ) :
    Prop where
  ordered : l.Pairwise fun x y => d.Before (SortKey.ofRecord x) (SortKey.ofRecord y)
  mem_iff : ∀ x, x ∈ l ↔ s.find? (keyText x) = some x ∧ accepts f x ∧
    ∀ a, after = some a → d.Before a (SortKey.ofRecord x)

theorem Ahead.exists_before {d : Direction} {f : Filter} {after : Option SortKey} {s : MemoryStore ρ}
    {l : List ρ} (h : Ahead d f after s l) {n : Nat} (hn : 0 < n) {r : ρ} (hr : r ∈ l.drop n) :
    n < l.length ∧ ∃ x, (l.take n).getLast? = some x ∧ d.Before (SortKey.ofRecord x) (SortKey.ofRecord r) := by
  have hlen := List.length_pos_of_mem hr
  rw [List.length_drop] at hlen
  have hne : l.take n ≠ [] := by
    apply List.ne_nil_of_length_pos
    rw [List.length_take]
    omega
  have hordered := h.ordered
  rw [← List.take_append_drop n l, List.pairwise_append] at hordered
  refine ⟨by omega, (l.take n).getLast hne, List.getLast?_eq_some_getLast hne, ?_⟩
  exact hordered.2.2 _ (List.getLast_mem hne) r hr

theorem MemoryStore.Consistent.exists_ahead {s : MemoryStore ρ} {f : Filter} (h : s.Consistent) {d : Direction}
    {after : Option SortKey} {limit : Nat} {found : List ρ}
    (hfound : s.scan f ⟨after, d.scanOrder⟩ limit = .ok found) :
    ∃ l : List ρ, Ahead d f after s l ∧ found = l.take limit := by
  obtain ⟨_, hf, _⟩ := bind_eq_ok_iff.1 hfound
  rw [h.scan_eq hf, Except.ok.injEq] at hfound
  have hranked := (h.ranked_matching f).filter fun x =>
    (⟨after, d.scanOrder⟩ : ScanRange).admits (SortKey.ofRecord x)
  have hmem : ∀ x, (x ∈ (s.matching f).filter fun x =>
      (⟨after, d.scanOrder⟩ : ScanRange).admits (SortKey.ofRecord x)) ↔
      s.find? (keyText x) = some x ∧ accepts f x ∧ ∀ a, after = some a → d.Before a (SortKey.ofRecord x) := by
    intro x
    rw [List.mem_filter, h.mem_matching_iff, Direction.admits_iff, and_assoc]
  cases d with
  | down => exact ⟨_, ⟨hranked.descending, hmem⟩, hfound.symm⟩
  | up =>
    refine ⟨_, ⟨List.pairwise_reverse.2 hranked.descending, ?_⟩, hfound.symm⟩
    intro x
    rw [List.mem_reverse]
    exact hmem x

theorem Window.eq_of_resolve {s : MemoryStore ρ} {f : Filter} {r x : ρ} {d : Direction} {w : Window}
    (h : Window.resolve s f (some (Cursor.ofRecord r)) d = .ok w) (hx : s.find? (keyText r) = some x)
    (hxr : Record.ordinal x = Record.ordinal r) : w = ⟨d, some (SortKey.ofRecord r), false, false⟩ := by
  obtain ⟨found, hfound, h⟩ := bind_eq_ok_iff.1 h
  obtain ⟨_, _, hfound⟩ := bind_eq_ok_iff.1 hfound
  have hfind : s.find? (RecordKey.encode (Cursor.ofRecord r).key) = some x := hx
  rw [hfind] at hfound
  by_cases hf : accepts f x
  · rw [Option.filter_some_pos hf] at hfound
    cases hfound
    cases h
    unfold SortKey.ofRecord
    rw [← hxr]
    rfl
  · rw [Option.filter_some_neg (eq_false_of_ne_true hf)] at hfound
    cases hfound
    cases h

/--
A page that is answered between the writes of others. The cursor is looked up in the store `s` and the
records are read from the store `s'`; they are counted at some moment before the store has become `s''`.
-/
inductive Served (f : Filter) (count : Int32) (token : Option String) (s s' s'' : MemoryStore ρ) :
    Page ρ → Prop where
  | intro (request : PageRequest) (cursor : Option (Cursor κ)) (w : Window) (found : List ρ) (total : Nat)
    (t : MemoryStore ρ) (hrequest : PageRequest.ofCount count = .ok request)
    (hcursor : (token.mapM fun t => (Cursor.decode (Record.kind ρ) t).mapError CursorFault.toError) = .ok cursor)
    (hwindow : Window.resolve s f cursor request.direction = .ok w)
    (hs' : s.Later s') (hfound : s'.scan f w.scanRange (Page.probe request.size) = .ok found)
    (ht : s.Later t) (htotal : t.count f = .ok total)
    (hs'' : s'.Later s'') (ht'' : t.Later s'') :
    Served f count token s s' s'' (Page.ofScan found total f w request.size)

theorem Served.later {f : Filter} {count : Int32} {token : Option String} {s s' s'' : MemoryStore ρ}
    {page : Page ρ} (h : Served f count token s s' s'' page) : s.Later s' ∧ s'.Later s'' := by
  cases h with
  | intro _ _ _ _ _ _ _ _ _ hs' _ _ _ hs'' _ => exact ⟨hs', hs''⟩

inductive LeadsPast (s : MemoryStore ρ) : Option String → Option SortKey → Prop where
  | edge : LeadsPast s none none
  | past (r x : ρ) (hx : s.find? (keyText r) = some x) (hxr : Record.ordinal x = Record.ordinal r) :
    LeadsPast s (some (Cursor.ofRecord r).encode) (some (SortKey.ofRecord r))

theorem LeadsPast.window {s : MemoryStore ρ} {f : Filter} {token : Option String} {after : Option SortKey}
    (h : LeadsPast s token after) {d : Direction} {cursor : Option (Cursor κ)} {w : Window}
    (hcursor : (token.mapM fun t => (Cursor.decode (Record.kind ρ) t).mapError CursorFault.toError) = .ok cursor)
    (hwindow : Window.resolve s f cursor d = .ok w) :
    w.direction = d ∧ w.after = after ∧ (w.direction = .up → w.isStart = false) ∧
      (w.direction = .down → w.isEnd = false) := by
  cases h with
  | edge =>
    rw [Option.mapM_none] at hcursor
    cases hcursor
    cases hwindow
    unfold Window.whole
    cases d <;> simp
  | past r x hx hxr =>
    rw [Option.mapM_some, Cursor.decode_encode_ofRecord] at hcursor
    cases hcursor
    rw [Window.eq_of_resolve hwindow hx hxr]
    simp

theorem Served.exists_ahead {f : Filter} {count : Int32} {token : Option String} {s s' s'' : MemoryStore ρ}
    {page : Page ρ} (h : Served f count token s s' s'' page) (hs : s.Consistent) {after : Option SortKey}
    (htoken : LeadsPast s token after) :
    ∃ (l : List ρ) (n : Nat), 0 < n ∧ Ahead (.ofCount count) f after s' l ∧
      page.reading (.ofCount count) = l.take n ∧ page.stops (.ofCount count) = decide (l.length ≤ n) := by
  cases h with
  | intro request cursor w found total t hrequest hcursor hwindow hs' hfound _ _ _ _ =>
    have hpos : 0 < count.toInt.natAbs := by
      have := PageRequest.ne_zero_of_ofCount hrequest
      omega
    have hprobe := Page.probe_eq (natAbs_lt_maxLimit count)
    have hrequest := PageRequest.eq_of_ofCount hrequest
    subst hrequest
    dsimp only at hwindow hfound ⊢
    obtain ⟨hdirection, hafter, hstart, hend⟩ := htoken.window hcursor hwindow
    have hreading := Page.reading_ofScan found total f w count.toInt.natAbs
    have hstops := Page.stops_ofScan found total f count.toInt.natAbs hstart hend
    unfold Window.scanRange at hfound
    rw [hdirection, hafter, hprobe] at hfound
    rw [hdirection] at hreading hstops
    obtain ⟨l, hl, hfound⟩ := (hs'.consistent hs).exists_ahead hfound
    refine ⟨l, count.toInt.natAbs, hpos, hl, ?_, ?_⟩
    · rw [hreading, hfound, List.take_take, Nat.min_eq_left (Nat.le_succ _)]
    · rw [hstops, hfound, hprobe, List.length_take, decide_eq_decide]
      omega

theorem served_of_list {s : MemoryStore ρ} {f : Filter} {count : Int32} {token : Option String} {page : Page ρ}
    (h : (⟨s, none⟩ : Listing ρ).list f token count = .ok page) : Served f count token s s s page := by
  obtain ⟨request, w, cursor, hrequest, hcursor, hwindow, hload⟩ := Engine.exists_of_list_eq_ok h
  obtain ⟨found, hfound, hload⟩ := bind_eq_ok_iff.1 hload
  obtain ⟨total, htotal, hload⟩ := bind_eq_ok_iff.1 hload
  rw [← Except.ok.inj hload]
  exact .intro request cursor w found total s hrequest hcursor hwindow .refl hfound .refl htotal .refl .refl

end ChainIndex
