import ChainIndex.Proofs.Listing.Pages

/-!
This module contains the proof that a cache follows its store, how far behind it can fall when records
sink, and that the pages it answers with are the pages of the store as long as it is not behind.
-/

namespace ChainIndex

variable {ρ κ : Type} [RecordKey κ] [Record ρ κ]

open Cache (keyText place)

omit [RecordKey κ] [Record ρ κ] in
theorem take_eq_of_take_eq {l m : List ρ} {d n : Nat} (h : l.take d = m.take d) (hn : n ≤ d) :
    l.take n = m.take n := by
  have hagrees := congrArg (List.take n) h
  rwa [List.take_take, List.take_take, Nat.min_eq_left hn] at hagrees

theorem foldr_place {l : List ρ} (h : Ranked l) : l.foldr place [] = l := by
  induction l with
  | nil => rfl
  | cons x l ih =>
    rw [List.foldr_cons, ih h.tail]
    apply place_of_forall_not_lt
    intro y hy
    exact Std.not_gt_of_lt (h.lt_head hy)

namespace MemoryStore.Consistent

variable {s : MemoryStore ρ}

theorem length_records_overwrite (h : s.Consistent) (r : ρ) :
    (s.overwrite r).records.length =
      if (s.find? (keyText r)).isNone then s.records.length + 1 else s.records.length := by
  rw [h.records_overwrite]
  cases hx : s.find? (keyText r) with
  | none =>
    apply length_settle_of_forall
    intro x hx' hxr
    rw [h.mem_records_iff, hxr, hx] at hx'
    cases hx'
  | some x =>
    have hxr := h.key_of_find? hx
    rw [← hxr] at hx
    exact h.ranked_records.length_settle_of_mem (h.mem_records_iff.2 hx) hxr

theorem not_sinks_records (h : s.Consistent) {r : ρ} (hr : s.Steady r) : ¬Sinks r s.records := by
  rintro ⟨x, hx, hxr, hlt⟩
  rw [h.mem_records_iff, hxr] at hx
  rw [ofRecord_eq_iff.2 ⟨hr x hx, hxr⟩] at hlt
  exact Std.lt_irrefl hlt

end MemoryStore.Consistent

namespace Cache

/--
The cache knows how many records there are, and it agrees with the store on the top of the listing but for
the last `lag` of the records that it has room for.
-/
structure Follows (c : Cache ρ) (s : MemoryStore ρ) (lag : Nat) : Prop where
  total : c.total = some s.records.length
  bounded : c.recent.length ≤ c.recentCapacity
  sublist : c.recent.Sublist s.records
  agrees : c.recent.take (c.recentCapacity - lag) = s.records.take (c.recentCapacity - lag)

@[simp]
theorem recent_remember (c : Cache ρ) (r : ρ) : (c.remember r).recent = c.recent := by
  unfold remember
  split <;> rfl

@[simp]
theorem total_remember (c : Cache ρ) (r : ρ) : (c.remember r).total = c.total := by
  unfold remember
  split <;> rfl

@[simp]
theorem recentCapacity_remember (c : Cache ρ) (r : ρ) :
    (c.remember r).recentCapacity = c.recentCapacity := by
  unfold remember
  split <;> rfl

@[simp]
theorem recent_recordWritten (c : Cache ρ) (r : ρ) (inserted : Bool) :
    (c.recordWritten r inserted).recent = (settle r c.recent).take c.recentCapacity := by
  unfold recordWritten
  apply recent_remember

@[simp]
theorem total_recordWritten (c : Cache ρ) (r : ρ) (inserted : Bool) :
    (c.recordWritten r inserted).total = if inserted then c.total.map (· + 1) else c.total := by
  unfold recordWritten
  apply total_remember

@[simp]
theorem recentCapacity_recordWritten (c : Cache ρ) (r : ρ) (inserted : Bool) :
    (c.recordWritten r inserted).recentCapacity = c.recentCapacity := by
  unfold recordWritten
  apply recentCapacity_remember

namespace Follows

variable {c : Cache ρ} {s : MemoryStore ρ} {lag : Nat}

theorem remember (h : c.Follows s lag) (r : ρ) : (c.remember r).Follows s lag := by
  constructor
  · rw [total_remember, h.total]
  · rw [recent_remember, recentCapacity_remember]
    exact h.bounded
  · rw [recent_remember]
    exact h.sublist
  · rw [recent_remember, recentCapacity_remember]
    exact h.agrees

theorem warm (hs : s.Consistent) (c : Cache ρ) :
    (c.warm (s.records.take c.recentCapacity) s.records.length).Follows s 0 := by
  have hrecent : (c.warm (s.records.take c.recentCapacity) s.records.length).recent =
      s.records.take c.recentCapacity := by
    unfold Cache.warm
    dsimp only
    rw [foldr_place (hs.ranked_records.take _), List.take_take, Nat.min_self]
  constructor
  · rfl
  · rw [hrecent]
    apply List.length_take_le
  · rw [hrecent]
    apply List.take_sublist
  · rw [hrecent, Nat.sub_zero, List.take_take]
    unfold Cache.warm
    rw [Nat.min_self]

theorem recordWritten (h : c.Follows s lag) (hs : s.Consistent) (r : ρ) {lag' : Nat}
    (hlag : lag + 1 = lag' ∨ lag = lag' ∧ ¬Sinks r s.records) :
    (c.recordWritten r (s.find? (keyText r)).isNone).Follows (s.overwrite r) lag' := by
  constructor
  · rw [total_recordWritten, hs.length_records_overwrite, h.total]
    split
    · rfl
    · rfl
  · rw [recent_recordWritten, recentCapacity_recordWritten]
    apply List.length_take_le
  · rw [recent_recordWritten, hs.records_overwrite]
    apply (List.take_sublist _ _).trans
    exact settle_sublist hs.ranked_records h.sublist
  · rw [recent_recordWritten, recentCapacity_recordWritten, hs.records_overwrite, List.take_take]
    -- What the cache cuts off lies below the part that it has to agree on.
    rw [Nat.min_eq_left (Nat.sub_le _ _)]
    have hrecent := hs.ranked_records.sublist h.sublist
    by_cases hzero : c.recentCapacity - lag' = 0
    · rw [hzero, List.take_zero, List.take_zero]
    · apply hrecent.take_settle hs.ranked_records h.agrees
      cases hlag with
      | inl hlag =>
        left
        omega
      | inr hlag =>
        right
        rw [hlag.1]
        exact ⟨rfl, hlag.2⟩

theorem mono (h : c.Follows s lag) {lag' : Nat} (hlag : lag ≤ lag') : c.Follows s lag' := by
  constructor
  · exact h.total
  · exact h.bounded
  · exact h.sublist
  · apply take_eq_of_take_eq h.agrees
    omega

theorem take_eq_of_le (h : c.Follows s lag) {n : Nat} (hn : n + lag ≤ c.recentCapacity) :
    c.recent.take n = s.records.take n := by
  apply take_eq_of_take_eq h.agrees
  omega

end Follows

end Cache

omit [RecordKey κ] [Record ρ κ] in
theorem Filter.isEmpty_iff {f : Filter} : f.isEmpty ↔ f = .all := by
  unfold isEmpty all
  rw [List.isEmpty_iff]
  constructor
  · intro h
    cases f
    cases h
    rfl
  · intro h
    rw [h]

theorem PageRequest.pos_of_ofCount {count : Int32} {request : PageRequest} (h : ofCount count = .ok request)
    (hdown : request.direction = .down) : 0 < count.toInt := by
  apply Decidable.byContradiction
  intro hcount
  have hneg : count.toInt < 0 := by
    have := ne_zero_of_ofCount h
    omega
  rw [ofCount_of_neg hneg] at h
  cases h
  cases hdown

namespace Engine

def write (g : Listing ρ) (r : ρ) : Listing ρ where
  store := g.store.overwrite r
  cache := g.cache.map (·.recordWritten r (g.store.find? (keyText r)).isNone)

theorem upsert_eq_write (g : Listing ρ) (r : ρ) :
    (g.upsert r).2 = g.write (MemoryStore.keepOrdinal (g.store.find? (keyText r)) r) := by
  have hupsert : RecordStore.upsert g.store r = _ := g.store.upsert_eq r
  unfold upsert write updateCache
  rw [hupsert, MemoryStore.keyText_keepOrdinal]
  cases g.store.find? (keyText r) <;> rfl

theorem merge_eq (g : Listing ρ) (key : κ) (plan : Planner ρ) :
    (g.merge key plan).1 = (g.store.merge key plan).1 ∧
      (g.merge key plan).2.store = (g.store.merge key plan).2 := by
  have hmerge : RecordStore.merge g.store key plan = g.store.merge key plan := rfl
  unfold merge updateCache
  rw [hmerge]
  split
  · next h =>
    rw [h]
    exact ⟨rfl, rfl⟩
  · next h =>
    rw [h]
    dsimp only
    split <;> exact ⟨rfl, rfl⟩

theorem merge_of_error {g : Listing ρ} {key : κ} {plan : Planner ρ} {e : IndexError}
    (h : plan (g.store.find? (RecordKey.encode key)) = .error e) : g.merge key plan = (.error e, g) := by
  have hmerge : RecordStore.merge g.store key plan = _ := MemoryStore.merge_of_error h
  unfold merge
  rw [hmerge]

theorem merge_of_skip {g : Listing ρ} {key : κ} {plan : Planner ρ}
    (h : plan (g.store.find? (RecordKey.encode key)) = .ok .skip) :
    g.merge key plan = (.ok ⟨g.store.find? (RecordKey.encode key), .skip⟩, g) := by
  have hmerge : RecordStore.merge g.store key plan = _ := MemoryStore.merge_of_skip h
  unfold merge
  rw [hmerge]
  rfl

theorem merge_of_foreign {g : Listing ρ} {key : κ} {plan : Planner ρ} {w : Write ρ} {other : String}
    (h : plan (g.store.find? (RecordKey.encode key)) = .ok w)
    (hforeign : w.foreignKey? (RecordKey.encode key) = some other) :
    g.merge key plan =
      (.error (.internal s!"merge for `{RecordKey.encode key}` tried to write `{other}`"), g) := by
  have hmerge : RecordStore.merge g.store key plan = _ := MemoryStore.merge_of_foreign h hforeign
  unfold merge
  rw [hmerge]

theorem merge_of_put {g : Listing ρ} {key : κ} {plan : Planner ρ} {r : ρ}
    (h : plan (g.store.find? (RecordKey.encode key)) = .ok (.put r)) (hkey : keyText r = RecordKey.encode key) :
    g.merge key plan =
      (.ok ⟨g.store.find? (keyText r), .put (MemoryStore.keepOrdinal (g.store.find? (keyText r)) r)⟩,
        g.write (MemoryStore.keepOrdinal (g.store.find? (keyText r)) r)) := by
  have hmerge : RecordStore.merge g.store key plan = _ := MemoryStore.merge_of_put h hkey
  unfold merge write
  rw [hmerge, MemoryStore.keyText_keepOrdinal]
  rfl

theorem merge_of_replace {g : Listing ρ} {key : κ} {plan : Planner ρ} {r : ρ}
    (h : plan (g.store.find? (RecordKey.encode key)) = .ok (.replace r)) (hkey : keyText r = RecordKey.encode key) :
    g.merge key plan = (.ok ⟨g.store.find? (keyText r), .replace r⟩, g.write r) := by
  have hmerge : RecordStore.merge g.store key plan = _ := MemoryStore.merge_of_replace h hkey
  unfold merge write
  rw [hmerge]
  rfl

theorem merge_cases (g : Listing ρ) (key : κ) (plan : Planner ρ) :
    (g.merge key plan).2 = g ∨
    (∃ r, plan (g.store.find? (RecordKey.encode key)) = .ok (.put r) ∧
      (g.merge key plan).2 = g.write (MemoryStore.keepOrdinal (g.store.find? (keyText r)) r)) ∨
    (∃ r, plan (g.store.find? (RecordKey.encode key)) = .ok (.replace r) ∧ keyText r = RecordKey.encode key ∧
      (g.merge key plan).2 = g.write r) := by
  have hmerge : RecordStore.merge g.store key plan = g.store.merge key plan := rfl
  unfold merge write updateCache
  rw [hmerge]
  rcases g.store.merge_cases key plan with ⟨e, h⟩ | ⟨_, h⟩ | ⟨r, hr, _, h⟩ | ⟨r, hr, hkey, h⟩
  · left
    rw [h]
  · left
    rw [h]
    rfl
  · right
    left
    refine ⟨r, hr, ?_⟩
    rw [h, MemoryStore.keyText_keepOrdinal]
    rfl
  · right
    right
    refine ⟨r, hr, hkey, ?_⟩
    rw [h]
    rfl

theorem warm_eq {g : Listing ρ} (hs : g.store.Consistent) :
    g.warm.2 = ⟨g.store, g.cache.map fun c =>
      c.warm (g.store.records.take c.recentCapacity) g.store.records.length⟩ := by
  unfold warm
  cases hc : g.cache with
  | none =>
    cases g
    cases hc
    rfl
  | some c =>
    have hscan : RecordStore.scan g.store .all ⟨none, .descending⟩ c.recentCapacity = _ :=
      hs.scan_eq rfl ⟨none, .descending⟩ c.recentCapacity
    have hcount : RecordStore.count g.store .all = _ := g.store.count_eq rfl
    have hall : (g.store.records.filter fun x => (⟨none, .descending⟩ : ScanRange).admits (SortKey.ofRecord x)) =
        g.store.records := List.filter_eq_self.2 fun _ _ => rfl
    dsimp only
    rw [hscan, hcount]
    dsimp only
    rw [MemoryStore.matching_all, hall]
    rfl

theorem get_cases (g : Listing ρ) (key : κ) :
    (g.get key).2 = g ∨ ∃ r, (g.get key).2 = ⟨g.store, g.cache.map (·.remember r)⟩ := by
  unfold get
  split
  · left
    rfl
  · split
    · left
      rfl
    · left
      rfl
    · next r _ =>
      right
      exact ⟨r, rfl⟩

theorem list_of_recentPage {g : Listing ρ} {count : Int32} {page : Page ρ} (hcount : 0 < count.toInt)
    (h : g.recentPage count.toInt.natAbs = some page) : g.list .all none count = .ok page := by
  unfold list
  rw [PageRequest.ofCount_of_pos hcount]
  have hdirect : (Filter.all.isEmpty && Direction.down == Direction.down) = true := rfl
  dsimp only [Bind.bind, Except.bind, Option.mapM_none, Pure.pure, Except.pure]
  rw [Option.isNone_none, Bool.true_and, if_pos hdirect, h]

theorem page_of_list {σ : Type} [RecordStore σ ρ κ] {g : Engine σ ρ} {f : Filter} {token : Option String}
    {count : Int32} {page : Page ρ} (h : g.list f token count = .ok page) :
    ∃ request, PageRequest.ofCount count = .ok request ∧
      (f = .all ∧ g.recentPage request.size = some page ∨
        ∃ found total window, page = Page.ofScan found total f window request.size) := by
  obtain ⟨request, hrequest, h⟩ := bind_eq_ok_iff.1 h
  obtain ⟨cursor, _, h⟩ := bind_eq_ok_iff.1 h
  refine ⟨request, hrequest, ?_⟩
  dsimp only at h
  split at h
  · next hrecent =>
    cases h
    split at hrecent
    · next hall =>
      rw [Bool.and_eq_true, Bool.and_eq_true, Filter.isEmpty_iff] at hall
      left
      exact ⟨hall.1.2, hrecent⟩
    · cases hrecent
  · obtain ⟨window, _, h⟩ := bind_eq_ok_iff.1 h
    obtain ⟨found, _, h⟩ := bind_eq_ok_iff.1 h
    obtain ⟨total, _, h⟩ := bind_eq_ok_iff.1 h
    cases h
    right
    exact ⟨found, total, window, rfl⟩

theorem list_eq_uncached_of {g : Listing ρ} {f : Filter} {token : Option String} {count : Int32}
    (h : token = none → f = .all → 0 < count.toInt → ∀ page,
      g.recentPage count.toInt.natAbs = some page →
      (⟨g.store, none⟩ : Listing ρ).list .all none count = .ok page) :
    g.list f token count = (⟨g.store, none⟩ : Listing ρ).list f token count := by
  -- Only the top of the whole listing is ever looked for in the cache.
  by_cases hdirect : token = none ∧ f = .all ∧ 0 < count.toInt
  · obtain ⟨rfl, rfl, hcount⟩ := hdirect
    cases hpage : g.recentPage count.toInt.natAbs with
    | some page =>
      rw [list_of_recentPage hcount hpage, h rfl rfl hcount page hpage]
    | none =>
      rw [list_uncached]
      unfold list
      rw [PageRequest.ofCount_of_pos hcount]
      dsimp only [Bind.bind, Except.bind, Option.mapM_none, Pure.pure, Except.pure]
      rw [hpage, ite_self]
  · rw [list_uncached]
    unfold list
    cases hrequest : PageRequest.ofCount count with
    | error e => rfl
    | ok request =>
      cases hcursor : token.mapM fun t => (Cursor.decode (κ := κ) (Record.kind ρ) t).mapError CursorFault.toError with
      | error e => rfl
      | ok cursor =>
        have hindirect : ¬(cursor.isNone && f.isEmpty && request.direction == .down) = true := by
          intro hall
          rw [Bool.and_eq_true, Bool.and_eq_true, Filter.isEmpty_iff, beq_iff_eq] at hall
          obtain ⟨⟨hnone, hall⟩, hdown⟩ := hall
          apply hdirect
          refine ⟨?_, hall, PageRequest.pos_of_ofCount hrequest hdown⟩
          cases token with
          | none => rfl
          | some t =>
            rw [Option.mapM_some] at hcursor
            obtain ⟨_, _, hcursor⟩ := map_eq_ok_iff.1 hcursor
            rw [← hcursor] at hnone
            cases hnone
        dsimp only [Bind.bind, Except.bind]
        rw [if_neg hindirect]

omit [RecordKey κ] in
theorem recentPage_eq {s : MemoryStore ρ} {c : Cache ρ} {total n : Nat} (h : c.total = some total) :
    (⟨s, some c⟩ : Listing ρ).recentPage n =
      if n < c.recent.length then
        some { Page.ofRecords (c.recent.take n) total .all with isStart := true }
      else none := by
  unfold recentPage Cache.recentPage
  dsimp only [Bind.bind, Option.bind]
  rw [h]
  by_cases hn : n < c.recent.length
  · rw [if_pos hn]
    dsimp only
    rw [if_pos hn]
    rfl
  · rw [if_neg hn]
    dsimp only
    rw [if_neg hn]

omit [RecordKey κ] in
theorem slice_top {l : List ρ} {f : Filter} {n : Nat} (h : n < l.length) :
    Page.slice l f 0 (min n l.length) = { Page.ofRecords (l.take n) l.length f with isStart := true } := by
  have hend : decide (n = l.length) = false := decide_eq_false (Nat.ne_of_lt h)
  unfold Page.slice Page.ofRecords
  dsimp only
  rw [Nat.min_eq_left (Nat.le_of_lt h), List.drop_zero, hend, decide_eq_true rfl]

theorem list_eq_uncached_iff {s : MemoryStore ρ} {c : Cache ρ} {lag : Nat} (h : c.Follows s lag)
    (hs : s.Consistent) (count : Int32) :
    (⟨s, some c⟩ : Listing ρ).list .all none count = (⟨s, none⟩ : Listing ρ).list .all none count ↔
      (0 < count.toInt → count.toInt.natAbs < c.recent.length →
        c.recent.take count.toInt.natAbs = s.records.take count.toInt.natAbs) := by
  have hlen := h.sublist.length_le
  have hpage := recentPage_eq (s := s) (n := count.toInt.natAbs) h.total
  constructor
  · intro heq hcount hlt
    rw [if_pos hlt] at hpage
    rw [list_of_recentPage hcount hpage, list_top hs rfl hcount, s.matching_all] at heq
    rw [slice_top (Nat.lt_of_lt_of_le hlt hlen)] at heq
    exact congrArg Page.records (Except.ok.inj heq)
  · intro hagree
    apply list_eq_uncached_of
    intro _ _ hcount page hrecent
    rw [hpage] at hrecent
    split at hrecent
    · next hlt =>
      rw [list_top hs rfl hcount, s.matching_all, slice_top (Nat.lt_of_lt_of_le hlt hlen)]
      rw [← Option.some.inj hrecent, hagree hcount hlt]
    · cases hrecent

theorem exists_pages {s : MemoryStore ρ} {c : Cache ρ} {lag : Nat} (h : c.Follows s lag) (hs : s.Consistent)
    {count : Int32} (hcount : 0 < count.toInt) :
    ∃ p q : Page ρ, (⟨s, some c⟩ : Listing ρ).list .all none count = .ok p ∧
      (⟨s, none⟩ : Listing ρ).list .all none count = .ok q ∧
      p.total = q.total ∧ p.isStart = q.isStart ∧ p.isEnd = q.isEnd := by
  have hlen := h.sublist.length_le
  have hpage := recentPage_eq (s := s) (n := count.toInt.natAbs) h.total
  have hlist := list_top (f := .all) hs rfl hcount
  by_cases hlt : count.toInt.natAbs < c.recent.length
  · rw [if_pos hlt] at hpage
    rw [s.matching_all, slice_top (Nat.lt_of_lt_of_le hlt hlen)] at hlist
    exact ⟨_, _, list_of_recentPage hcount hpage, hlist, rfl, rfl, rfl⟩
  · have heq := (list_eq_uncached_iff h hs count).2 fun _ h => absurd h hlt
    exact ⟨_, _, heq.trans hlist, hlist, rfl, rfl, rfl⟩

end Engine

end ChainIndex
