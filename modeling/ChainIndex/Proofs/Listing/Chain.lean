import ChainIndex.Proofs.Listing.Reading
import ChainIndex.Proofs.Listing.Session

/-!
This module contains the proof that a client who follows the cursors of a listing that does not change comes to
its end, has got every page on the way, and has seen every record once.
-/

namespace ChainIndex

variable {ρ κ : Type} [RecordKey κ] [Record ρ κ]

namespace Direction

def Asks (d : Direction) (count : Int32) : Prop :=
  match d with
  | .down => 0 < count.toInt
  | .up => count.toInt < 0

instance (d : Direction) (count : Int32) : Decidable (d.Asks count) :=
  match d with
  | .down => inferInstanceAs (Decidable (0 < count.toInt))
  | .up => inferInstanceAs (Decidable (count.toInt < 0))

theorem Asks.natAbs_pos {d : Direction} {count : Int32} (h : d.Asks count) : 0 < count.toInt.natAbs := by
  unfold Asks at h
  cases d with
  | down =>
    dsimp only at h
    omega
  | up =>
    dsimp only at h
    omega

def read (d : Direction) (l : List ρ) : List ρ :=
  match d with
  | .down => l
  | .up => l.reverse

omit [RecordKey κ] [Record ρ κ] in
theorem length_read (d : Direction) (l : List ρ) : (d.read l).length = l.length := by
  cases d with
  | down => rfl
  | up => exact List.length_reverse

end Direction

namespace Page

def starts (d : Direction) (p : Page ρ) : Bool :=
  match d with
  | .down => p.isStart
  | .up => p.isEnd

/--
The page has up to `n` records past the first `k` of the list, which runs in the direction of reading.
-/
structure Part (d : Direction) (l : List ρ) (k n : Nat) (p : Page ρ) : Prop where
  reading_eq : p.reading d = (l.drop k).take n
  total_eq : p.total = l.length
  starts_eq : p.starts d = decide (k = 0)
  stops_eq : p.stops d = decide (l.length ≤ k + n)

omit [RecordKey κ] in
theorem part_slice_down (l : List ρ) (f : Filter) (k n : Nat) :
    Part .down l k n (slice l f k (min (k + n) l.length)) := by
  constructor
  · exact drop_take_min l k n
  · rfl
  · rfl
  · unfold slice stops
    dsimp only
    rw [decide_eq_decide]
    omega

omit [RecordKey κ] in
theorem part_slice_up (l : List ρ) (f : Filter) {k : Nat} (n : Nat) (hk : k ≤ l.length) :
    Part .up l.reverse k n (slice l f (l.length - k - n) (l.length - k)) := by
  constructor
  · unfold slice reading
    dsimp only
    rw [drop_take_sub (Nat.sub_le _ _), List.reverse_reverse, List.drop_reverse]
  · exact List.length_reverse.symm
  · unfold slice starts
    dsimp only
    rw [decide_eq_decide]
    omega
  · unfold slice stops
    dsimp only
    rw [decide_eq_decide, List.length_reverse]
    omega

end Page

inductive TokenAt (l : List ρ) : Nat → Option String → Prop where
  | edge : TokenAt l 0 none
  | past {k : Nat} {r : ρ} (h : l[k]? = some r) : TokenAt l (k + 1) (some (Cursor.ofRecord r).encode)

namespace Engine

theorem list_part {s : MemoryStore ρ} {f : Filter} {d : Direction} {count : Int32} {k : Nat}
    {token : Option String} (hs : s.Consistent) (hf : f.ensureValid = .ok ()) (hcount : d.Asks count)
    (htoken : TokenAt (d.read (s.matching f)) k token) :
    ∃ page, (⟨s, none⟩ : Listing ρ).list f token count = .ok page ∧
      page.Part d (d.read (s.matching f)) k count.toInt.natAbs := by
  cases htoken with
  | edge =>
    cases d with
    | down =>
      have hpart := Page.part_slice_down (s.matching f) f 0 count.toInt.natAbs
      rw [Nat.zero_add] at hpart
      exact ⟨_, list_top hs hf hcount, hpart⟩
    | up => exact ⟨_, list_bottom hs hf hcount, Page.part_slice_up _ f count.toInt.natAbs (Nat.zero_le _)⟩
  | @past k r hr =>
    have hdecode := Cursor.decode_encode_ofRecord r
    have hlt := (List.getElem?_eq_some_iff.1 hr).1
    rw [Direction.length_read] at hlt
    cases d with
    | down => exact ⟨_, list_below hs hf hcount hr hdecode, Page.part_slice_down _ f (k + 1) count.toInt.natAbs⟩
    | up =>
      unfold Direction.read at hr
      dsimp only at hr
      rw [List.getElem?_reverse hlt] at hr
      have hi : (s.matching f).length - 1 - k = (s.matching f).length - (k + 1) := by omega
      rw [hi] at hr
      exact ⟨_, list_above hs hf hcount hr hdecode, Page.part_slice_up _ f count.toInt.natAbs hlt⟩

end Engine

def Direction.assemble (d : Direction) (pages : List (Page ρ)) : List ρ :=
  match d with
  | .down => pages.flatMap Page.records
  | .up => pages.reverse.flatMap Page.records

def Page.sizes (pages : List (Page ρ)) : Nat :=
  pages.foldr (fun p n => p.size + n) 0

omit [RecordKey κ] [Record ρ κ] in
theorem Page.length_flatMap_records (pages : List (Page ρ)) :
    (pages.flatMap records).length = Page.sizes pages := by
  induction pages with
  | nil => rfl
  | cons p pages ih =>
    rw [List.flatMap_cons, List.length_append, ih]
    rfl

omit [RecordKey κ] [Record ρ κ] in
theorem Direction.length_assemble (d : Direction) (pages : List (Page ρ)) :
    (d.assemble pages).length = Page.sizes pages := by
  rw [← Page.length_flatMap_records]
  unfold assemble
  cases d with
  | down => rfl
  | up =>
    dsimp only
    rw [List.length_flatMap, List.length_flatMap, List.map_reverse, List.sum_reverse]

/--
Pages that follow on one another from past the first `k` records to the end of the list, and end there.
-/
inductive Chain (d : Direction) (l : List ρ) : Nat → List (Page ρ) → Prop where
  | last {k n : Nat} {page : Page ρ} (h : page.Part d l k n) (hend : l.length ≤ k + n) : Chain d l k [page]
  | next {k n : Nat} {page : Page ρ} {pages : List (Page ρ)} (h : page.Part d l k n) (hn : 0 < n)
    (hgoes : k + n < l.length) (hrest : Chain d l (k + n) pages) : Chain d l k (page :: pages)

namespace Chain

variable {d : Direction} {l : List ρ} {k : Nat} {pages : List (Page ρ)}

theorem flatMap_reading (h : Chain d l k pages) : (pages.flatMap fun p => p.reading d) = l.drop k := by
  induction h with
  | last h hend =>
    rw [List.flatMap_singleton, h.reading_eq]
    apply List.take_of_length_le
    rw [List.length_drop]
    omega
  | @next k n page pages h _ _ _ ih =>
    rw [List.flatMap_cons, ih, h.reading_eq, ← List.drop_drop, List.take_append_drop]

theorem length_pos (h : Chain d l k pages) : 0 < pages.length := by
  cases h <;> simp

theorem length_le (h : Chain d l k pages) : pages.length ≤ max 1 (l.length - k) := by
  induction h with
  | last _ _ => exact Nat.le_max_left _ _
  | next _ hn hgoes _ ih =>
    rw [List.length_cons]
    omega

theorem total_eq (h : Chain d l k pages) : ∀ page ∈ pages, page.total = l.length := by
  induction h with
  | last h _ =>
    rw [List.forall_mem_singleton]
    exact h.total_eq
  | next h _ _ _ ih =>
    rw [List.forall_mem_cons]
    exact ⟨h.total_eq, ih⟩

theorem stops_eq (h : Chain d l k pages) : ∀ i page, pages[i]? = some page →
    page.stops d = decide (i + 1 = pages.length) := by
  induction h with
  | last h hend =>
    intro i page hi
    rw [List.getElem?_singleton] at hi
    split at hi
    · next hzero =>
      rw [← Option.some.inj hi, h.stops_eq, hzero]
      exact decide_eq_true hend
    · cases hi
  | next h _ hgoes hrest ih =>
    intro i page hi
    cases i with
    | zero =>
      have hpos := hrest.length_pos
      rw [List.getElem?_cons_zero] at hi
      rw [← Option.some.inj hi, h.stops_eq, decide_eq_decide, List.length_cons]
      omega
    | succ i =>
      rw [List.getElem?_cons_succ] at hi
      rw [ih i page hi, decide_eq_decide, List.length_cons]
      omega

theorem starts_eq (h : Chain d l k pages) : ∀ i page, pages[i]? = some page →
    page.starts d = decide (k = 0 ∧ i = 0) := by
  induction h with
  | last h hend =>
    intro i page hi
    rw [List.getElem?_singleton] at hi
    split at hi
    · next hzero =>
      rw [← Option.some.inj hi, h.starts_eq, decide_eq_decide]
      omega
    · cases hi
  | next h hn hgoes hrest ih =>
    intro i page hi
    cases i with
    | zero =>
      rw [List.getElem?_cons_zero] at hi
      rw [← Option.some.inj hi, h.starts_eq, decide_eq_decide]
      omega
    | succ i =>
      rw [List.getElem?_cons_succ] at hi
      rw [ih i page hi, decide_eq_decide]
      omega

theorem assemble_eq {l : List ρ} {pages : List (Page ρ)} (h : Chain d (d.read l) 0 pages) :
    d.assemble pages = l := by
  have hflat := h.flatMap_reading
  rw [List.drop_zero] at hflat
  unfold Direction.assemble
  cases d with
  | down => exact hflat
  | up =>
    apply List.reverse_inj.1
    rw [List.reverse_flatMap, List.reverse_reverse]
    exact hflat

end Chain

theorem Page.Part.tokenAt {d : Direction} {l : List ρ} {k n : Nat} {page : Page ρ} (h : page.Part d l k n)
    (hn : 0 < n) (hgoes : k + n < l.length) :
    ∃ cursor : Cursor κ, page.next? d = some cursor ∧ TokenAt l (k + n) (some cursor.encode) := by
  have hlen : ((l.drop k).take n).length = n := by
    rw [List.length_take, List.length_drop]
    omega
  have hlast : ((l.drop k).take n).getLast? = l[k + (n - 1)]? := by
    rw [List.getLast?_eq_getElem?, hlen, List.getElem?_take_of_lt (by omega), List.getElem?_drop]
  obtain ⟨r, hr⟩ : ∃ r, l[k + (n - 1)]? = some r := ⟨_, List.getElem?_eq_getElem (by omega)⟩
  have hstep : k + (n - 1) + 1 = k + n := by omega
  refine ⟨Cursor.ofRecord r, ?_, ?_⟩
  · rw [next?_eq, h.reading_eq, hlast, hr, Option.map_some]
  · rw [← hstep]
    exact .past hr

namespace Engine

/--
The pages that a client sees who reads one way from a token on, with a count for each page, until the
listing ends, and at most `limit` pages.
-/
def pagesFrom (g : Listing ρ) (f : Filter) (d : Direction) :
    Nat → (Nat → Int32) → Option String → Except IndexError (List (Page ρ))
  | 0, _, _ => .ok []
  | limit + 1, counts, token => do
    let page ← g.list f token (counts 0)
    match if page.stops d then none else page.next? d with
    | none => return [page]
    | some cursor => return page :: (← g.pagesFrom f d limit (fun i => counts (i + 1)) (some cursor.encode))

section pagesFrom

variable {g : Listing ρ} {f : Filter} {d : Direction} {counts : Nat → Int32} {token : Option String}
  {page : Page ρ}

theorem pagesFrom_of_stops (hpage : g.list f token (counts 0) = .ok page) (hstops : page.stops d = true)
    (limit : Nat) : g.pagesFrom f d (limit + 1) counts token = .ok [page] := by
  unfold pagesFrom
  rw [hpage]
  dsimp only [Bind.bind, Except.bind]
  rw [if_pos hstops]
  rfl

theorem pagesFrom_of_goes {limit : Nat} {cursor : Cursor κ} {pages : List (Page ρ)}
    (hpage : g.list f token (counts 0) = .ok page) (hstops : page.stops d = false)
    (hcursor : page.next? d = some cursor)
    (hpages : g.pagesFrom f d limit (fun i => counts (i + 1)) (some cursor.encode) = .ok pages) :
    g.pagesFrom f d (limit + 1) counts token = .ok (page :: pages) := by
  unfold pagesFrom
  rw [hpage]
  dsimp only [Bind.bind, Except.bind]
  rw [hstops, if_neg Bool.false_ne_true, hcursor]
  dsimp only
  rw [hpages]
  rfl

/--
The engine's own walk asks for the same count every time.
-/
theorem walk_eq_pagesFrom (g : Listing ρ) (f : Filter) (count : Int32) (limit : Nat) (token : Option String) :
    g.walk f count limit token = g.pagesFrom f (.ofCount count) limit (fun _ => count) token := by
  induction limit generalizing token with
  | zero => rfl
  | succ limit ih =>
    unfold walk pagesFrom
    by_cases hcount : 0 < count.toInt
    · have hdown : Direction.ofCount count = .down := if_pos hcount
      simp only [ih, hdown, if_pos hcount]
      rfl
    · have hup : Direction.ofCount count = .up := if_neg hcount
      simp only [ih, hup, if_neg hcount]
      rfl

theorem exists_chain (h : InStep g) (hf : f.ensureValid = .ok ()) {k : Nat} (counts : Nat → Int32)
    (hcounts : ∀ i, d.Asks (counts i)) {token : Option String}
    (htoken : TokenAt (d.read (g.store.matching f)) k token) :
    ∃ pages, Chain d (d.read (g.store.matching f)) k pages ∧
      ∀ limit, pages.length ≤ limit → g.pagesFrom f d limit counts token = .ok pages := by
  obtain ⟨page, hpage, hpart⟩ := list_part h.consistent hf (hcounts 0) htoken
  rw [← h.list_eq] at hpage
  have hn := (hcounts 0).natAbs_pos
  by_cases hend : (d.read (g.store.matching f)).length ≤ k + (counts 0).toInt.natAbs
  · have hstops := hpart.stops_eq.trans (decide_eq_true hend)
    refine ⟨[page], .last hpart hend, ?_⟩
    intro limit hlimit
    cases limit with
    | zero => cases hlimit
    | succ limit => exact pagesFrom_of_stops hpage hstops limit
  · have hgoes := Nat.not_le.1 hend
    have hstops := hpart.stops_eq.trans (decide_eq_false hend)
    obtain ⟨cursor, hcursor, hnext⟩ := hpart.tokenAt hn hgoes
    obtain ⟨pages, hchain, hpages⟩ := exists_chain h hf (fun i => counts (i + 1)) (fun i => hcounts (i + 1)) hnext
    refine ⟨page :: pages, .next hpart hn hgoes hchain, ?_⟩
    intro limit hlimit
    -- The rest of the pages has one page less to stay within.
    cases limit with
    | zero => cases hlimit
    | succ limit => exact pagesFrom_of_goes hpage hstops hcursor (hpages limit (Nat.le_of_succ_le_succ hlimit))
-- Every page has at least one record, so less and less of the listing is left.
termination_by (d.read (g.store.matching f)).length - k
decreasing_by omega

end pagesFrom

theorem inStep_start {s : MemoryStore ρ} (hs : s.Consistent) (capacities : Option (Nat × Nat)) :
    InStep (⟨s, capacities.map fun (records, recent) => .empty records recent⟩ : Listing ρ) := by
  constructor
  · exact hs
  · intro c hc
    obtain ⟨_, _, hempty⟩ := Option.map_eq_some_iff.1 hc
    left
    rw [← hempty, total_empty]

/--
A client who asks for pages until the listing ends gets all of them, whatever their sizes, and at most one a
record. Only the first page touches the edge that it starts from, only the last one the other edge, and put
together they are the listing.
-/
theorem pages_cover_listing {s : MemoryStore ρ} (hs : s.Reachable) (capacities : Option (Nat × Nat))
    {g : Listing ρ} (hg : Session ⟨s, capacities.map fun (records, recent) => .empty records recent⟩ g)
    {f : Filter} (hf : f.validate = .ok ()) {d : Direction} (counts : Nat → Int32)
    (hcounts : ∀ i, d.Asks (counts i)) :
    g.store.IsListing f (g.store.matching f) ∧
    ∃ pages : List (Page ρ), (∀ limit, pages.length ≤ limit → g.pagesFrom f d limit counts none = .ok pages) ∧
      0 < pages.length ∧ pages.length ≤ max 1 (g.store.matching f).length ∧
      (∀ i page, pages[i]? = some page →
        page.starts d = decide (i = 0) ∧ page.stops d = decide (i + 1 = pages.length)) ∧
      d.assemble pages = g.store.matching f ∧
      ∀ page ∈ pages, page.total = Page.sizes pages := by
  have h := hg.inStep (inStep_start hs.consistent capacities)
  rw [← Filter.ensureValid_eq_ok_iff] at hf
  obtain ⟨pages, hchain, hpages⟩ := exists_chain h hf counts hcounts .edge
  have hlength := hchain.length_le
  rw [Direction.length_read, Nat.sub_zero] at hlength
  refine ⟨h.consistent.isListing_matching f, pages, hpages, hchain.length_pos, hlength, ?_,
    hchain.assemble_eq, ?_⟩
  · intro i page hi
    refine ⟨?_, hchain.stops_eq i page hi⟩
    rw [hchain.starts_eq i page hi, decide_eq_decide]
    omega
  · intro page hpage
    rw [hchain.total_eq page hpage, Direction.length_read, ← hchain.assemble_eq, Direction.length_assemble]

def growing (i : Nat) : Int32 :=
  if i = 0 then -1 else -2

theorem pages_cover_listing_cached_epochs :
    Session ⟨tiedEpochs, (some (1, 2)).map fun (records, recent) => .empty records recent⟩ cachedEpochs ∧
    (∀ i, Direction.up.Asks (growing i)) ∧
    ∃ pages, cachedEpochs.pagesFrom laterEpochs .up 3 growing none = .ok pages ∧
      Direction.up.assemble pages = [tiedEpoch 9, tiedEpoch 300, tiedEpoch 10] := by
  have hg : Session ⟨tiedEpochs, (some (1, 2)).map fun (records, recent) => .empty records recent⟩ cachedEpochs :=
    .upsert (.warm .start) _
  have hcounts : ∀ i, Direction.up.Asks (growing i) := by
    intro i
    unfold growing
    split <;> decide
  have hf : laterEpochs.validate = .ok () := rfl
  have hm : cachedEpochs.store.matching laterEpochs = [tiedEpoch 9, tiedEpoch 300, tiedEpoch 10] := by
    decide +kernel
  obtain ⟨_, pages, hpages, _, hlength, _, hassemble, _⟩ :=
    pages_cover_listing reachable_tiedEpochs (some (1, 2)) hg hf growing hcounts
  rw [hm] at hassemble hlength
  exact ⟨hg, hcounts, pages, hpages 3 hlength, hassemble⟩

end Engine

end ChainIndex
