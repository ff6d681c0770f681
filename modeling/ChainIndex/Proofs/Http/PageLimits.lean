import ChainIndex.Proofs.Http.ListRequests
import ChainIndex.Proofs.Listing.Reading

/-!
This module contains the proof that the limits of a page hold, whatever the settings say that they are read from and
whatever a request asks for: no page is larger than they allow, and only a request for no records has no page.
-/

namespace ChainIndex

namespace PageLimits

structure Valid (limits : PageLimits) : Prop where
  pos : 1 ≤ limits.defaultSize
  le : limits.defaultSize ≤ limits.maxSize

theorem one_le_max (size : UInt32) : 1 ≤ max 1 size := by
  by_cases hsize : 1 ≤ size
  · have hmax : max 1 size = size := if_pos hsize
    rwa [hmax]
  · have hmax : max 1 size = 1 := if_neg hsize
    exact Std.le_of_eq hmax.symm

theorem valid_ofSizes (defaultSize maxSize : UInt32) : (ofSizes defaultSize maxSize).Valid := by
  constructor
  · apply Std.le_min_iff.2
    exact ⟨one_le_max defaultSize, one_le_max maxSize⟩
  · apply Std.min_le_right

def reach (limits : PageLimits) : Nat :=
  min limits.maxSize.toNat ListQuery.maxCount

theorem reach_le (limits : PageLimits) : limits.reach ≤ ListQuery.maxCount := by
  apply Nat.min_le_right

theorem reach_le_maxSize (limits : PageLimits) : limits.reach ≤ limits.maxSize.toNat := by
  apply Nat.min_le_left

namespace Valid

variable {limits : PageLimits}

theorem default_pos (h : limits.Valid) : 0 < limits.defaultSize.toNat :=
  UInt32.le_iff_toNat_le.1 h.pos

theorem reach_pos (h : limits.Valid) : 0 < limits.reach := by
  have hmax := Nat.lt_of_lt_of_le h.default_pos (UInt32.le_iff_toNat_le.1 h.le)
  apply Nat.lt_min.2
  exact ⟨hmax, by decide⟩

end Valid

theorem valid_of_ofSettings {setting : String → Option String} {config : Config}
    (h : Config.ofSettings setting = .ok config) : config.pageLimits.Valid := by
  obtain ⟨listenAddress, _, h⟩ := bind_eq_ok_iff.1 h
  obtain ⟨backend, _, h⟩ := bind_eq_ok_iff.1 h
  cases h
  apply valid_ofSizes

end PageLimits

namespace ListQuery

variable {q : ListQuery} {limits : PageLimits} {n : Int32}

theorem toInt_ofInt_of_natAbs_le {count : Int} (h : count.natAbs ≤ maxCount) : (Int32.ofInt count).toInt = count := by
  unfold maxCount UInt32.size at h
  apply Int32.toInt_ofInt_of_le
  · omega
  · omega

theorem toInt_countWithin_of_none (h : q.count = none) :
    (q.countWithin limits).toInt = min (limits.defaultSize.toNat : Int) limits.reach := by
  have hreach := limits.reach_le
  have hcount : q.countWithin limits = Int32.ofInt
      (if limits.defaultSize.toNat ≤ maxCount then min (limits.defaultSize.toNat : Int) limits.reach
        else limits.reach) := by
    unfold countWithin
    rw [h]
    rfl
  rw [hcount]
  split
  · rw [toInt_ofInt_of_natAbs_le]
    omega
  -- A default that no count can say is beyond the reach.
  · rw [toInt_ofInt_of_natAbs_le]
    · omega
    · omega

theorem toInt_countWithin_of_some (h : q.count = some n) :
    (q.countWithin limits).toInt = max (-(limits.reach : Int)) (min (limits.reach : Int) n.toInt) := by
  have hreach := limits.reach_le
  have hcount : q.countWithin limits = Int32.ofInt (max (-(limits.reach : Int)) (min (limits.reach : Int) n.toInt)) := by
    unfold countWithin
    rw [h]
    rfl
  rw [hcount, toInt_ofInt_of_natAbs_le]
  omega

theorem natAbs_countWithin_le (q : ListQuery) (limits : PageLimits) :
    (q.countWithin limits).toInt.natAbs ≤ limits.maxSize.toNat := by
  have hreach := limits.reach_le_maxSize
  cases hcount : q.count with
  | none =>
    rw [toInt_countWithin_of_none hcount]
    omega
  | some n =>
    rw [toInt_countWithin_of_some hcount]
    omega

theorem countWithin_pos_of_none (h : limits.Valid) (hcount : q.count = none) :
    0 < (q.countWithin limits).toInt := by
  have hdefault := h.default_pos
  have hreach := h.reach_pos
  rw [toInt_countWithin_of_none hcount]
  omega

theorem sign_countWithin_of_some (h : limits.Valid) (hcount : q.count = some n) :
    (q.countWithin limits).toInt.sign = n.toInt.sign := by
  have hreach := h.reach_pos
  rw [toInt_countWithin_of_some hcount]
  rcases Int.lt_trichotomy n.toInt 0 with hneg | hzero | hpos
  · rw [Int.sign_eq_neg_one_of_neg hneg, Int.sign_eq_neg_one_of_neg]
    omega
  · rw [hzero]
    apply congrArg Int.sign
    omega
  · rw [Int.sign_eq_one_of_pos hpos, Int.sign_eq_one_of_pos]
    omega

theorem countWithin_eq_of_some (hcount : q.count = some n) (hn : n.toInt.natAbs ≤ limits.reach) :
    q.countWithin limits = n := by
  rw [← Int32.toInt_inj, toInt_countWithin_of_some hcount]
  omega

theorem toInt_countWithin_eq_zero_iff (h : limits.Valid) :
    (q.countWithin limits).toInt = 0 ↔ q.count = some 0 := by
  cases hcount : q.count with
  | none =>
    have hpos := countWithin_pos_of_none h hcount
    simp
    omega
  | some n =>
    rw [← Int.sign_eq_zero_iff_zero, sign_countWithin_of_some h hcount, Int.sign_eq_zero_iff_zero, Option.some.injEq,
      ← Int32.toInt_inj, Int32.toInt_zero]

end ListQuery

variable {σ ρ κ : Type} [RecordKey κ] [Record ρ κ]

omit [RecordKey κ] in
theorem Page.length_records_ofScan (found : List ρ) (total : Nat) (f : Filter) (window : Window) (size : Nat) :
    (ofScan found total f window size).records.length ≤ size := by
  unfold ofScan
  cases window.direction with
  | down => apply List.length_take_le
  | up =>
    dsimp only [reverse, ofRecords]
    rw [List.length_reverse]
    apply List.length_take_le

/--
None of the reads of a store is refused for the size of a page, which a store is not told.
-/
structure RecordStore.SizeBlind [RecordStore σ ρ κ] (store : σ) : Prop where
  scan : ∀ f range limit, RecordStore.scan store f range limit ≠ .error .invalidPageSize
  count : ∀ f, RecordStore.count store f ≠ .error .invalidPageSize
  ordinalIn : ∀ key f, RecordStore.ordinalIn store key f ≠ .error .invalidPageSize

theorem MemoryStore.sizeBlind (s : MemoryStore ρ) : RecordStore.SizeBlind s := by
  have hvalid : ∀ (f : Filter) {α : Type} (a : α),
      (f.ensureValid.bind fun _ => .ok a) ≠ .error IndexError.invalidPageSize := by
    intro f α a h
    rcases bind_eq_error_iff.1 h with hfault | ⟨_, _, hdone⟩
    · apply mapError_ne_error _ hfault
      nofun
    · cases hdone
  constructor
  · intro f range limit
    apply hvalid
  · intro f
    apply hvalid
  · intro key f
    apply hvalid

namespace Engine

variable [RecordStore σ ρ κ] {g : Engine σ ρ} {f : Filter} {token : Option String} {count : Int32} {page : Page ρ}

omit [RecordKey κ] [RecordStore σ ρ κ] in
theorem length_records_of_recentPage {size : Nat} (h : g.recentPage size = some page) :
    page.records.length ≤ size := by
  obtain ⟨cache, _, h⟩ := Option.bind_eq_some_iff.1 h
  obtain ⟨⟨top, total⟩, htop, h⟩ := Option.bind_eq_some_iff.1 h
  cases h
  obtain ⟨_, _, htop⟩ := Option.bind_eq_some_iff.1 htop
  split at htop
  · cases htop
    apply List.length_take_le
  · cases htop

theorem length_records_of_list (h : g.list f token count = .ok page) : page.records.length ≤ count.toInt.natAbs := by
  obtain ⟨request, hrequest, hpage⟩ := page_of_list h
  rw [PageRequest.eq_of_ofCount hrequest] at hpage
  cases hpage with
  | inl hrecent => exact length_records_of_recentPage hrecent.2
  | inr hfound =>
    obtain ⟨found, total, window, rfl⟩ := hfound
    apply Page.length_records_ofScan

omit [Record ρ κ] in
theorem resolve_ne_invalidPageSize {store : σ} (h : RecordStore.SizeBlind store) (f : Filter)
    (cursor : Option (Cursor κ)) (direction : Direction) :
    Window.resolve store f cursor direction ≠ .error .invalidPageSize := by
  cases cursor with
  | none => nofun
  | some cursor =>
    intro hpast
    rcases bind_eq_error_iff.1 hpast with hordinal | ⟨found, _, hpast⟩
    · exact h.ordinalIn _ _ hordinal
    · cases found with
      | none => cases hpast
      | some ordinal => cases hpast

omit [RecordKey κ] in
theorem load_ne_invalidPageSize {store : σ} (h : RecordStore.SizeBlind store) (f : Filter) (window : Window)
    (size : Nat) : Page.load store f window size ≠ .error .invalidPageSize := by
  intro hload
  rcases bind_eq_error_iff.1 hload with hscan | ⟨found, _, hload⟩
  · exact h.scan _ _ _ hscan
  · rcases bind_eq_error_iff.1 hload with hcount | ⟨total, _, hload⟩
    · exact h.count _ hcount
    · cases hload

omit [Record ρ κ] [RecordStore σ ρ κ] in
theorem decode_ne_invalidPageSize (kind : RecordKind) (token : Option String) :
    (token.mapM fun t => (Cursor.decode (κ := κ) kind t).mapError CursorFault.toError) ≠
      .error .invalidPageSize := by
  cases token with
  | none => nofun
  | some t =>
    intro hcursor
    rw [Option.mapM_some] at hcursor
    cases hdecode : (Cursor.decode kind t : Except CursorFault (Cursor κ)) with
    | error fault =>
      rw [hdecode] at hcursor
      cases hcursor
    | ok cursor =>
      rw [hdecode] at hcursor
      cases hcursor

theorem list_eq_invalidPageSize_iff (h : RecordStore.SizeBlind g.store) :
    g.list f token count = .error .invalidPageSize ↔ count.toInt = 0 := by
  constructor
  · intro hlist
    apply Decidable.byContradiction
    intro hcount
    obtain ⟨request, hrequest⟩ := exists_ofCount hcount
    rcases bind_eq_error_iff.1 hlist with hsize | ⟨request, _, hlist⟩
    · rw [hrequest] at hsize
      cases hsize
    rcases bind_eq_error_iff.1 hlist with hcursor | ⟨cursor, _, hlist⟩
    · exact decode_ne_invalidPageSize _ _ hcursor
    · dsimp only at hlist
      split at hlist
      · cases hlist
      · rcases bind_eq_error_iff.1 hlist with hwindow | ⟨window, _, hload⟩
        · exact resolve_ne_invalidPageSize h _ _ _ hwindow
        · exact load_ne_invalidPageSize h _ _ _ hload
  · intro hcount
    unfold list PageRequest.ofCount
    rw [if_pos hcount]
    rfl

end Engine

namespace Server

variable {server : Server} {kind : RecordKind} {query : ListQuery}

theorem listPage_eq_invalidPageSize_iff (h : server.limits.Valid) :
    server.listPage kind query = .error .invalidPageSize ↔
      query.count = some 0 ∧ ∃ f, Filter.ofText query.filter = .ok f := by
  rw [← ListQuery.toInt_countWithin_eq_zero_iff h]
  unfold listPage
  cases hfilter : Filter.ofText query.filter with
  | error fault =>
    constructor
    · intro hfault
      cases hfault
    · rintro ⟨_, f, hf⟩
      cases hf
  | ok f =>
    have hlist : (server.service.listing kind).list f query.cursor (query.countWithin server.limits) =
        .error .invalidPageSize ↔ (query.countWithin server.limits).toInt = 0 :=
      Engine.list_eq_invalidPageSize_iff (server.service.listing kind).store.sizeBlind
    constructor
    · intro hpage
      exact ⟨hlist.1 hpage, f, rfl⟩
    · rintro ⟨hcount, _⟩
      exact hlist.2 hcount

theorem length_records_of_listPage {page : Page kind.Entry} (h : server.listPage kind query = .ok page) :
    page.records.length ≤ server.limits.maxSize.toNat := by
  obtain ⟨f, _, hlist⟩ := bind_eq_ok_iff.1 h
  apply Nat.le_trans (Engine.length_records_of_list hlist)
  apply ListQuery.natAbs_countWithin_le

/--
Limits that are read from settings are in order, whatever the settings say. A request is then served as it asks, as far
as the maximum reaches, and by default if it asks for nothing. Every page keeps to the maximum, over any store.
-/
theorem limits_hold {setting : String → Option String} {config : Config} (h : Config.ofSettings setting = .ok config) :
    (1 ≤ config.pageLimits.defaultSize ∧ config.pageLimits.defaultSize ≤ config.pageLimits.maxSize) ∧
    (∀ query : ListQuery,
      (query.count = none → 0 < (query.countWithin config.pageLimits).toInt) ∧
      ((query.countWithin config.pageLimits).toInt = 0 ↔ query.count = some 0) ∧
      ∀ n, query.count = some n →
        (query.countWithin config.pageLimits).toInt.sign = n.toInt.sign ∧
        (n.toInt.natAbs ≤ min config.pageLimits.maxSize.toNat (Nat.pow 2 31 - 1) →
          query.countWithin config.pageLimits = n)) ∧
    (∀ (service : Service) (kind : RecordKind) (query : ListQuery),
      let server : Server := ⟨service, config.pageLimits⟩
      (server.listPage kind query = .error .invalidPageSize ↔
        query.count = some 0 ∧ ∃ f, Filter.ofText query.filter = .ok f) ∧
      (∀ page, server.listPage kind query = .ok page →
        page.records.length ≤ config.pageLimits.maxSize.toNat) ∧
      ∀ (now : Timestamp) (q : List Char), ListQuery.read? q = some query →
        server.answer now (.listing kind) q = (.ofResult ((server.listPage kind query).map Page.body), server)) ∧
    ∀ {σ ρ κ : Type} [RecordKey κ] [Record ρ κ] [RecordStore σ ρ κ] (g : Engine σ ρ) (f : Filter)
      (token : Option String) (query : ListQuery),
      (∀ page, g.list f token (query.countWithin config.pageLimits) = .ok page →
        page.records.length ≤ config.pageLimits.maxSize.toNat) ∧
      (RecordStore.SizeBlind g.store →
        (g.list f token (query.countWithin config.pageLimits) = .error .invalidPageSize ↔ query.count = some 0)) := by
  have hvalid := PageLimits.valid_of_ofSettings h
  refine ⟨⟨hvalid.pos, hvalid.le⟩, ?_, ?_, ?_⟩
  · intro query
    refine ⟨ListQuery.countWithin_pos_of_none hvalid, ListQuery.toInt_countWithin_eq_zero_iff hvalid, ?_⟩
    intro n hn
    exact ⟨ListQuery.sign_countWithin_of_some hvalid hn, ListQuery.countWithin_eq_of_some hn⟩
  · intro service kind query server
    refine ⟨listPage_eq_invalidPageSize_iff hvalid, fun page hpage => length_records_of_listPage hpage, ?_⟩
    intro now q hq
    exact answer_listing hq now
  · intro σ ρ κ _ _ _ g f token query
    constructor
    · intro page hpage
      apply Nat.le_trans (Engine.length_records_of_list hpage)
      apply ListQuery.natAbs_countWithin_le
    · intro hblind
      rw [Engine.list_eq_invalidPageSize_iff hblind, ListQuery.toInt_countWithin_eq_zero_iff hvalid]

def narrowSettings : String → Option String
  | "MAX_PAGE_SIZE" => some "2"
  | "DEFAULT_PAGE_SIZE" => some "many"
  | _ => none

def countQuery (count : Option Int32) : ListQuery :=
  ⟨none, count, none⟩

theorem limits_hold_narrow_settings :
    ∃ config, Config.ofSettings narrowSettings = .ok config ∧ config.pageLimits = ⟨2, 2⟩ ∧
      0 < ((countQuery none).countWithin config.pageLimits).toInt ∧
      ((countQuery (some (-2147483648))).countWithin config.pageLimits).toInt.sign = -1 ∧
      (countQuery (some (-2))).countWithin config.pageLimits = -2 ∧
      Engine.tiedEpochs.size = 3 ∧
      (∃ page, (⟨Engine.tiedEpochs, none⟩ : Listing Epoch).list .all none
          ((countQuery none).countWithin config.pageLimits) = .ok page ∧ page.records.length ≤ 2) ∧
      (⟨Engine.tiedEpochs, none⟩ : Listing Epoch).list .all none
        ((countQuery (some 0)).countWithin config.pageLimits) = .error .invalidPageSize ∧
      ((⟨.create 6 none, config.pageLimits⟩ : Server).answer Engine.noon (.listing .epoch) "count=0".toList).1 =
        ⟨400, some IndexError.invalidPageSize.body⟩ := by
  have hconfig : Config.ofSettings narrowSettings = .ok _ := rfl
  obtain ⟨_, hcount, hserver, hengine⟩ := limits_hold hconfig
  have hdefault := (hcount (countQuery none)).1 rfl
  have hlist := Engine.list_top (f := .all) Engine.reachable_tiedEpochs.consistent rfl hdefault
  refine ⟨_, hconfig, rfl, hdefault, ?_, ?_, by decide +kernel, ⟨_, hlist, ?_⟩, ?_, ?_⟩
  · exact ((hcount (countQuery (some (-2147483648)))).2.2 _ rfl).1
  · exact ((hcount (countQuery (some (-2)))).2.2 _ rfl).2 (by decide)
  · exact (hengine _ _ _ _).1 _ hlist
  · exact ((hengine _ _ _ (countQuery (some 0))).2 (MemoryStore.sizeBlind _)).2 rfl
  · have hread : ListQuery.read? "count=0".toList = some (countQuery (some 0)) := by decide +kernel
    obtain ⟨hrefused, _, hanswer⟩ := hserver (.create 6 none) .epoch (countQuery (some 0))
    rw [hanswer _ _ hread, hrefused.2 ⟨rfl, .all, rfl⟩]
    rfl

end Server

end ChainIndex
