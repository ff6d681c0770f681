import ChainIndex.Listing.InMemory
import ChainIndex.Proofs.Listing.Slices
import ChainIndex.Proofs.Outcomes
import ChainIndex.Proofs.Text.Utf8Order
import ChainIndex.Record.Epoch

/-!
This module contains the pages that a listing over a store in memory is answered with when there is no
cache: which stretch of the listing each of them shows, and when there is none.
-/

namespace ChainIndex

variable {ρ κ : Type} [RecordKey κ] [Record ρ κ]

open Cache (keyText)

/--
The page of a listing that a count and a token ask for. Without a token it starts from an edge of the
listing, with one right past the record that the token leads to.
-/
inductive Page.Answers (l : List ρ) (f : Filter) (count : Int32) : Option String → Page ρ → Prop where
  | top (h : 0 < count.toInt) :
    Answers l f count none (slice l f 0 (min count.toInt.natAbs l.length))
  | bottom (h : count.toInt < 0) :
    Answers l f count none (slice l f (l.length - count.toInt.natAbs) l.length)
  | below (h : 0 < count.toInt) (token : String) (i : Nat) (r : ρ) (hi : l[i]? = some r)
    (ht : Cursor.decode (Record.kind ρ) token = .ok (Cursor.ofRecord r)) :
    Answers l f count (some token) (slice l f (i + 1) (min (i + 1 + count.toInt.natAbs) l.length))
  | above (h : count.toInt < 0) (token : String) (i : Nat) (r : ρ) (hi : l[i]? = some r)
    (ht : Cursor.decode (Record.kind ρ) token = .ok (Cursor.ofRecord r)) :
    Answers l f count (some token) (slice l f (i - count.toInt.natAbs) i)

namespace MemoryStore

/--
The listing of a store under a filter: the stored records that meet the filter, the highest ordinals first
and of equal ordinals the one whose key has the higher bytes.
-/
structure IsListing (s : MemoryStore ρ) (f : Filter) (l : List ρ) : Prop where
  descending : l.Pairwise fun x y => Record.ordinal y < Record.ordinal x ∨
    Record.ordinal y = Record.ordinal x ∧ Utf8.bytes (keyText y) < Utf8.bytes (keyText x)
  mem_iff : ∀ r, r ∈ l ↔ s.find? (keyText r) = some r ∧ accepts f r

theorem Consistent.isListing_matching {s : MemoryStore ρ} (h : s.Consistent) (f : Filter) :
    s.IsListing f (s.matching f) := by
  constructor
  · apply (h.ranked_matching f).descending.imp
    intro x y hyx
    rw [Utf8.bytes_lt_iff]
    exact hyx
  · intro r
    exact h.mem_matching_iff

end MemoryStore

theorem Filter.ensureValid_eq_ok_iff {f : Filter} : f.ensureValid = .ok () ↔ f.validate = .ok () :=
  mapError_eq_ok_iff

theorem PageRequest.ne_zero_of_ofCount {count : Int32} {request : PageRequest}
    (h : ofCount count = .ok request) : count.toInt ≠ 0 := by
  intro hcount
  unfold ofCount at h
  rw [if_pos hcount] at h
  cases h

theorem Page.ensureValid_of_load {s : MemoryStore ρ} {f : Filter} {window : Window} {n : Nat} {page : Page ρ}
    (h : Page.load s f window n = .ok page) : f.ensureValid = .ok () := by
  obtain ⟨_, hscan, _⟩ := bind_eq_ok_iff.1 h
  obtain ⟨_, hf, _⟩ := bind_eq_ok_iff.1 hscan
  exact hf

theorem Cursor.kind_of_decode {kind : RecordKind} {token : String} {cursor : Cursor κ}
    (h : decode kind token = .ok cursor) : cursor.kind = kind := by
  unfold decode at h
  split at h
  · cases h
  · split at h
    · obtain ⟨_, _, h⟩ := bind_eq_ok_iff.1 h
      obtain ⟨_, _, h⟩ := bind_eq_ok_iff.1 h
      obtain ⟨_, _, h⟩ := bind_eq_ok_iff.1 h
      cases h
      rfl
    · cases h

theorem Cursor.decode_encode_ofRecord (r : ρ) : decode (Record.kind ρ) (ofRecord r).encode = .ok (ofRecord r) :=
  decode_encode (ofRecord r)

theorem Window.exists_of_past {s : MemoryStore ρ} {f : Filter} {cursor : Cursor κ} {direction : Direction}
    {window : Window} (h : Window.past s f cursor direction = .ok window) :
    ∃ r, s.find? (RecordKey.encode cursor.key) = some r ∧ MemoryStore.accepts f r := by
  unfold past at h
  obtain ⟨found, hfound, h⟩ := bind_eq_ok_iff.1 h
  obtain ⟨_, _, hfound⟩ := bind_eq_ok_iff.1 hfound
  cases hr : s.find? (RecordKey.encode cursor.key) with
  | none =>
    rw [hr] at hfound
    cases hfound
    cases h
  | some r =>
    refine ⟨r, rfl, ?_⟩
    apply Decidable.byContradiction
    intro hreject
    rw [hr, Option.filter_some_neg (eq_false_of_ne_true hreject)] at hfound
    cases hfound
    cases h

namespace Engine

theorem list_uncached (s : MemoryStore ρ) (f : Filter) (token : Option String) (count : Int32) :
    (⟨s, none⟩ : Listing ρ).list f token count = (do
      let request ← PageRequest.ofCount count
      let cursor : Option (Cursor κ) ← token.mapM fun t =>
        (Cursor.decode (Record.kind ρ) t).mapError CursorFault.toError
      let window ← Window.resolve s f cursor request.direction
      Page.load s f window request.size) := by
  unfold list
  cases PageRequest.ofCount count with
  | error e => rfl
  | ok request =>
    cases (token.mapM fun t => (Cursor.decode (κ := κ) (Record.kind ρ) t).mapError CursorFault.toError) with
    | error e => rfl
    | ok cursor =>
      have hrecent : (⟨s, none⟩ : Listing ρ).recentPage request.size = none := rfl
      dsimp only [Bind.bind, Except.bind]
      rw [hrecent, ite_self]

variable {s : MemoryStore ρ} {f : Filter} {count : Int32}

theorem list_edge {request : PageRequest} (hrequest : PageRequest.ofCount count = .ok request) :
    (⟨s, none⟩ : Listing ρ).list f none count = Page.load s f (.whole request.direction) request.size := by
  rw [list_uncached, hrequest]
  rfl

theorem list_past (h : s.Consistent) (hf : f.ensureValid = .ok ()) {request : PageRequest}
    (hrequest : PageRequest.ofCount count = .ok request) {token : String} {i : Nat} {r : ρ}
    (hi : (s.matching f)[i]? = some r) (ht : Cursor.decode (Record.kind ρ) token = .ok (Cursor.ofRecord r)) :
    (⟨s, none⟩ : Listing ρ).list f (some token) count =
      Page.load s f ⟨request.direction, some (SortKey.ofRecord r), false, false⟩ request.size := by
  have hpast := h.past_eq hf hi request.direction
  have hcursor := mapError_eq_ok_iff (g := CursorFault.toError) |>.2 ht
  rw [list_uncached, hrequest, Option.mapM_some, hcursor]
  dsimp only [Bind.bind, Except.bind, Functor.map, Except.map, Window.resolve]
  rw [hpast]

theorem list_top (h : s.Consistent) (hf : f.ensureValid = .ok ()) (hcount : 0 < count.toInt) :
    (⟨s, none⟩ : Listing ρ).list f none count =
      .ok (Page.slice (s.matching f) f 0 (min count.toInt.natAbs (s.matching f).length)) := by
  have hload := h.load_down hf none (natAbs_lt_maxLimit count) (Nat.zero_le _)
    (List.filter_eq_self.2 fun _ _ => rfl)
  rw [Nat.zero_add] at hload
  rw [list_edge (PageRequest.ofCount_of_pos hcount)]
  exact hload

theorem list_bottom (h : s.Consistent) (hf : f.ensureValid = .ok ()) (hcount : count.toInt < 0) :
    (⟨s, none⟩ : Listing ρ).list f none count =
      .ok (Page.slice (s.matching f) f ((s.matching f).length - count.toInt.natAbs) (s.matching f).length) := by
  have hadmits : (s.matching f).filter (fun x => (⟨none, .ascending⟩ : ScanRange).admits (SortKey.ofRecord x)) =
      (s.matching f).take (s.matching f).length := by
    rw [List.take_length]
    apply List.filter_eq_self.2
    intro _ _
    rfl
  have hload := h.load_up hf none (natAbs_lt_maxLimit count) (Nat.le_refl _) hadmits
  rw [decide_eq_true rfl] at hload
  rw [list_edge (PageRequest.ofCount_of_neg hcount)]
  exact hload

theorem list_below (h : s.Consistent) (hf : f.ensureValid = .ok ()) (hcount : 0 < count.toInt)
    {token : String} {i : Nat} {r : ρ} (hi : (s.matching f)[i]? = some r)
    (ht : Cursor.decode (Record.kind ρ) token = .ok (Cursor.ofRecord r)) :
    (⟨s, none⟩ : Listing ρ).list f (some token) count =
      .ok (Page.slice (s.matching f) f (i + 1) (min (i + 1 + count.toInt.natAbs) (s.matching f).length)) := by
  have hlt := (List.getElem?_eq_some_iff.1 hi).1
  have hload := h.load_down hf (some (SortKey.ofRecord r)) (natAbs_lt_maxLimit count) hlt
    ((h.ranked_matching f).filter_below hi)
  rw [decide_eq_false (Nat.succ_ne_zero i)] at hload
  rw [list_past h hf (PageRequest.ofCount_of_pos hcount) hi ht]
  exact hload

theorem list_above (h : s.Consistent) (hf : f.ensureValid = .ok ()) (hcount : count.toInt < 0)
    {token : String} {i : Nat} {r : ρ} (hi : (s.matching f)[i]? = some r)
    (ht : Cursor.decode (Record.kind ρ) token = .ok (Cursor.ofRecord r)) :
    (⟨s, none⟩ : Listing ρ).list f (some token) count =
      .ok (Page.slice (s.matching f) f (i - count.toInt.natAbs) i) := by
  have hlt := (List.getElem?_eq_some_iff.1 hi).1
  have hload := h.load_up hf (some (SortKey.ofRecord r)) (natAbs_lt_maxLimit count)
    (Nat.le_of_lt hlt) ((h.ranked_matching f).filter_above hi)
  rw [decide_eq_false (Nat.ne_of_lt hlt)] at hload
  rw [list_past h hf (PageRequest.ofCount_of_neg hcount) hi ht]
  exact hload

theorem exists_of_list_eq_ok {token : Option String} {page : Page ρ}
    (h : (⟨s, none⟩ : Listing ρ).list f token count = .ok page) :
    ∃ request window, ∃ cursor : Option (Cursor κ), PageRequest.ofCount count = .ok request ∧
      (token.mapM fun t => (Cursor.decode (Record.kind ρ) t).mapError CursorFault.toError) = .ok cursor ∧
      Window.resolve s f cursor request.direction = .ok window ∧
      Page.load s f window request.size = .ok page := by
  rw [list_uncached] at h
  obtain ⟨request, hrequest, h⟩ := bind_eq_ok_iff.1 h
  obtain ⟨cursor, hcursor, h⟩ := bind_eq_ok_iff.1 h
  obtain ⟨window, hwindow, h⟩ := bind_eq_ok_iff.1 h
  exact ⟨request, window, cursor, hrequest, hcursor, hwindow, h⟩

theorem exists_of_found (h : s.Consistent) {token : String} {cursor : Cursor κ} {r : ρ}
    (hcursor : Cursor.decode (Record.kind ρ) token = .ok cursor)
    (hr : s.find? (RecordKey.encode cursor.key) = some r) (haccepts : MemoryStore.accepts f r) :
    ∃ i : Nat, (s.matching f)[i]? = some r ∧ Cursor.decode (Record.kind ρ) token = .ok (Cursor.ofRecord r) := by
  have hkey : keyText r = RecordKey.encode cursor.key := h.key_of_find? hr
  rw [← hkey] at hr
  obtain ⟨i, hi⟩ := List.mem_iff_getElem?.1 (h.mem_matching_iff.2 ⟨hr, haccepts⟩)
  have hofRecord : cursor = Cursor.ofRecord r := by
    have hkind := Cursor.kind_of_decode hcursor
    have hsame := RecordKey.encode_inj hkey
    cases cursor
    cases hkind
    cases hsame
    rfl
  rw [hofRecord] at hcursor
  exact ⟨i, hi, hcursor⟩

theorem exists_of_list_some (h : s.Consistent) {token : String} {page : Page ρ}
    (hlist : (⟨s, none⟩ : Listing ρ).list f (some token) count = .ok page) :
    ∃ (i : Nat) (r : ρ), (s.matching f)[i]? = some r ∧
      Cursor.decode (Record.kind ρ) token = .ok (Cursor.ofRecord r) := by
  obtain ⟨request, window, cursor, _, hcursor, hwindow, _⟩ := exists_of_list_eq_ok hlist
  rw [Option.mapM_some] at hcursor
  obtain ⟨found, hfound, hcursor⟩ := map_eq_ok_iff.1 hcursor
  subst hcursor
  rw [mapError_eq_ok_iff] at hfound
  obtain ⟨r, hr, haccepts⟩ := Window.exists_of_past hwindow
  obtain ⟨i, hi, ht⟩ := exists_of_found h hfound hr haccepts
  exact ⟨i, r, hi, ht⟩

theorem list_eq_ok_iff (h : s.Consistent) {token : Option String} {page : Page ρ} :
    (⟨s, none⟩ : Listing ρ).list f token count = .ok page ↔
      f.ensureValid = .ok () ∧ Page.Answers (s.matching f) f count token page := by
  constructor
  · intro hlist
    obtain ⟨request, window, cursor, hrequest, hcursor, hwindow, hload⟩ := exists_of_list_eq_ok hlist
    have hf := Page.ensureValid_of_load hload
    refine ⟨hf, ?_⟩
    have hcount := PageRequest.ne_zero_of_ofCount hrequest
    cases token with
    | none =>
      by_cases hpos : 0 < count.toInt
      · rw [list_top h hf hpos, Except.ok.injEq] at hlist
        rw [← hlist]
        exact .top hpos
      · have hneg : count.toInt < 0 := by omega
        rw [list_bottom h hf hneg, Except.ok.injEq] at hlist
        rw [← hlist]
        exact .bottom hneg
    | some token =>
      obtain ⟨i, r, hi, ht⟩ := exists_of_list_some h hlist
      by_cases hpos : 0 < count.toInt
      · rw [list_below h hf hpos hi ht, Except.ok.injEq] at hlist
        rw [← hlist]
        exact .below hpos token i r hi ht
      · have hneg : count.toInt < 0 := by omega
        rw [list_above h hf hneg hi ht, Except.ok.injEq] at hlist
        rw [← hlist]
        exact .above hneg token i r hi ht
  · rintro ⟨hf, hanswers⟩
    cases hanswers with
    | top hcount => exact list_top h hf hcount
    | bottom hcount => exact list_bottom h hf hcount
    | below hcount token i r hi ht => exact list_below h hf hcount hi ht
    | above hcount token i r hi ht => exact list_above h hf hcount hi ht

theorem list_exact (hs : s.Reachable) (f : Filter) :
    s.IsListing f (s.matching f) ∧ ∀ token count page,
      (⟨s, none⟩ : Listing ρ).list f token count = .ok page ↔
        f.validate = .ok () ∧ Page.Answers (s.matching f) f count token page := by
  have h := hs.consistent
  constructor
  · exact h.isListing_matching f
  · intro token count page
    rw [list_eq_ok_iff h, Filter.ensureValid_eq_ok_iff]

def noon : Timestamp :=
  ⟨⟨2024, 5, 1⟩, ⟨12, 0, 0, 0⟩, by decide, by decide⟩

def tiedEpoch (id : UInt64) : Epoch where
  id := id
  endTime := noon
  totalSupply := .zero
  baseRewardPerSecond := .zero
  fee := .zero
  ordinal := ⟨5⟩

def tiedEpochs : MemoryStore Epoch :=
  (((MemoryStore.empty.upsert (tiedEpoch 300)).2.upsert (tiedEpoch 7)).2.upsert (tiedEpoch 10)).2

theorem reachable_tiedEpochs : tiedEpochs.Reachable :=
  .upsert (.upsert (.upsert .empty _) _) _

def laterEpochs : Filter :=
  ⟨[⟨"id", .gt, .number 8⟩]⟩

theorem list_tied_epochs :
    tiedEpochs.Reachable ∧
    (⟨tiedEpochs, none⟩ : Listing Epoch).list laterEpochs (some (Cursor.ofRecord (tiedEpoch 300)).encode) 1 =
      .ok ⟨[tiedEpoch 10], 2, some ⟨5⟩, some ⟨5⟩, false, true, laterEpochs⟩ := by
  have hs := reachable_tiedEpochs
  have hm : tiedEpochs.matching laterEpochs = [tiedEpoch 300, tiedEpoch 10] := by decide +kernel
  refine ⟨hs, ?_⟩
  have hpage : Page.slice [tiedEpoch 300, tiedEpoch 10] laterEpochs 1 2 =
      ⟨[tiedEpoch 10], 2, some ⟨5⟩, some ⟨5⟩, false, true, laterEpochs⟩ := by decide +kernel
  have hanswers : Page.Answers [tiedEpoch 300, tiedEpoch 10] laterEpochs 1
      (some (Cursor.ofRecord (tiedEpoch 300)).encode)
      (Page.slice [tiedEpoch 300, tiedEpoch 10] laterEpochs 1 2) :=
    .below (by decide) _ 0 (tiedEpoch 300) rfl (Cursor.decode_encode_ofRecord _)
  rw [← hpage, (list_exact hs laterEpochs).2, hm]
  exact ⟨rfl, hanswers⟩

end Engine

end ChainIndex
