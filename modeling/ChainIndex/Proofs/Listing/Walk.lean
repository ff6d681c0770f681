import ChainIndex.Proofs.Listing.Reading

/-!
This module contains the walk of a client from page to page while records are written, and the proof that
it delivers no record twice, and every record that is there all along.
-/

namespace ChainIndex

variable {ρ κ : Type} [RecordKey κ] [Record ρ κ]

open Cache (keyText)
open MemoryStore (accepts)

structure Visit (ρ : Type) where
  store : MemoryStore ρ
  page : Page ρ

def delivered (d : Direction) (log : List (Visit ρ)) : List ρ :=
  log.flatMap fun v => v.page.reading d

inductive Walk (f : Filter) (count : Int32) : MemoryStore ρ → List (Visit ρ) → Prop where
  | start {s : MemoryStore ρ} (hs : s.Reachable) : Walk f count s []
  | write {s s' : MemoryStore ρ} {log : List (Visit ρ)} (h : Walk f count s log) (hw : s.WritesInPlace s') :
    Walk f count s' log
  | first {s s' s'' : MemoryStore ρ} {page : Page ρ} (h : Walk f count s [])
    (hserved : Served f count none s s' s'' page) : Walk f count s'' [⟨s', page⟩]
  | next {s s' s'' : MemoryStore ρ} {log : List (Visit ρ)} {v : Visit ρ} {cursor : Cursor κ} {page : Page ρ}
    (h : Walk f count s (log ++ [v])) (hstops : v.page.stops (.ofCount count) = false)
    (hcursor : v.page.next? (.ofCount count) = some cursor)
    (hserved : Served f count (some cursor.encode) s s' s'' page) :
    Walk f count s'' (log ++ [v] ++ [⟨s', page⟩])

def Lasting (f : Filter) (log : List (Visit ρ)) (key : String) : Prop :=
  ∀ v ∈ log, ∃ r, v.store.find? key = some r ∧ accepts f r

omit [Record ρ κ] [RecordKey κ] in
theorem delivered_append (d : Direction) (log : List (Visit ρ)) (v : Visit ρ) :
    delivered d (log ++ [v]) = delivered d log ++ v.page.reading d := by
  unfold delivered
  rw [List.flatMap_append, List.flatMap_singleton]

theorem eq_or_rel_getLast {α : Type} {R : α → α → Prop} {l : List α} {x z : α} (h : l.Pairwise R)
    (hz : l.getLast? = some z) (hx : x ∈ l) : x = z ∨ R x z := by
  obtain ⟨m, hm⟩ := List.getLast?_eq_some_iff.1 hz
  subst hm
  cases List.mem_append.1 hx with
  | inl hx =>
    right
    exact (List.pairwise_append.1 h).2.2 x hx z List.mem_cons_self
  | inr hx =>
    left
    exact List.mem_singleton.1 hx

/--
Up to now the client has come past records in order, and every lasting key that it has not come past lies
ahead.
-/
structure OnTrack (d : Direction) (f : Filter) (s : MemoryStore ρ) (log : List (Visit ρ)) : Prop where
  consistent : s.Consistent
  later : ∀ v ∈ log, v.store.Later s
  found : ∀ v ∈ log, ∀ x ∈ v.page.reading d, v.store.find? (keyText x) = some x
  ordered : (delivered d log).Pairwise fun x y => d.Before (SortKey.ofRecord x) (SortKey.ofRecord y)
  covered : ∀ v, log.getLast? = some v → ∀ key r, v.store.find? key = some r → Lasting f log key →
    key ∈ (delivered d log).map keyText ∨ v.page.stops d = false ∧
      ∃ x, (delivered d log).getLast? = some x ∧ d.Before (SortKey.ofRecord x) ⟨Record.ordinal r, key⟩

namespace OnTrack

variable {d : Direction} {f : Filter} {s s' s'' : MemoryStore ρ} {log : List (Visit ρ)}

theorem start (hs : s.Consistent) : OnTrack d f s [] := by
  constructor
  · exact hs
  · simp
  · simp
  · exact List.Pairwise.nil
  · simp

theorem write (h : OnTrack d f s log) (hs : s.Later s') : OnTrack d f s' log := by
  constructor
  · exact hs.consistent h.consistent
  · intro v hv
    exact (h.later v hv).trans hs
  · exact h.found
  · exact h.ordered
  · exact h.covered

theorem stored (h : OnTrack d f s log) {x : ρ} (hx : x ∈ delivered d log) :
    ∃ y, s.find? (keyText x) = some y ∧ Record.ordinal y = Record.ordinal x := by
  obtain ⟨v, hv, hx⟩ := List.mem_flatMap.1 hx
  exact (h.later v hv).find? (h.found v hv x hx)

theorem nodup (h : OnTrack d f s log) : ((delivered d log).map keyText).Nodup := by
  apply List.pairwise_map.2
  apply h.ordered.imp_of_mem
  intro x y hx hy hxy heq
  obtain ⟨x', hx', hox⟩ := h.stored hx
  obtain ⟨y', hy', hoy⟩ := h.stored hy
  rw [heq, hy'] at hx'
  rw [Option.some.inj hx'] at hoy
  rw [ofRecord_eq_iff.2 ⟨hox.symm.trans hoy, heq⟩] at hxy
  exact d.not_before_self _ hxy

theorem behind_or_ahead (h : OnTrack d f s log) (hs : s.Later s') {key : String} {r : ρ}
    (hr : s'.find? key = some r) (hlasting : Lasting f log key) :
    key ∈ (delivered d log).map keyText ∨
      ∀ x, (delivered d log).getLast? = some x → d.Before (SortKey.ofRecord x) ⟨Record.ordinal r, key⟩ := by
  cases hv : log.getLast? with
  | none =>
    right
    intro x hx
    rw [List.getLast?_eq_none_iff.1 hv] at hx
    cases hx
  | some v =>
    have hmem := List.mem_of_getLast? hv
    -- The key has not moved since the last page was read.
    obtain ⟨q, hq, _⟩ := hlasting v hmem
    have hplace := ((h.later v hmem).trans hs).ordinal_eq hq hr
    cases h.covered v hv key q hq hlasting with
    | inl hdelivered =>
      left
      exact hdelivered
    | inr hahead =>
      right
      obtain ⟨_, x, hx, hbefore⟩ := hahead
      intro y hy
      rw [hx] at hy
      rw [← Option.some.inj hy, hplace]
      exact hbefore

theorem before_ahead (h : OnTrack d f s log) {l : List ρ}
    (hl : Ahead d f ((delivered d log).getLast?.map SortKey.ofRecord) s' l) {x y : ρ} (hx : x ∈ delivered d log)
    (hy : y ∈ l) : d.Before (SortKey.ofRecord x) (SortKey.ofRecord y) := by
  cases hz : (delivered d log).getLast? with
  | none =>
    rw [List.getLast?_eq_none_iff.1 hz] at hx
    cases hx
  | some z =>
    -- The last record delivered stands between the earlier ones and what lies ahead.
    have hzy : d.Before (SortKey.ofRecord z) (SortKey.ofRecord y) := by
      apply ((hl.mem_iff y).1 hy).2.2
      rw [hz]
      rfl
    cases eq_or_rel_getLast h.ordered hz hx with
    | inl hxz => rwa [hxz]
    | inr hxz => exact hxz.trans hzy

theorem delivered_or_mem (h : OnTrack d f s log) (hs : s.Later s') {l : List ρ}
    (hl : Ahead d f ((delivered d log).getLast?.map SortKey.ofRecord) s' l) {r : ρ}
    (hr : s'.find? (keyText r) = some r) (haccepts : accepts f r) (hlasting : Lasting f log (keyText r)) :
    keyText r ∈ (delivered d log).map keyText ∨ r ∈ l := by
  cases h.behind_or_ahead hs hr hlasting with
  | inl hdelivered =>
    left
    exact hdelivered
  | inr hahead =>
    right
    rw [hl.mem_iff]
    refine ⟨hr, haccepts, ?_⟩
    intro a ha
    obtain ⟨x, hx, hxa⟩ := Option.map_eq_some_iff.1 ha
    rw [← hxa]
    exact hahead x hx

theorem visit (h : OnTrack d f s log) (hs : s.Later s') (hs' : s'.Later s'') {page : Page ρ} {l : List ρ} {n : Nat}
    (hn : 0 < n) (hl : Ahead d f ((delivered d log).getLast?.map SortKey.ofRecord) s' l)
    (hreading : page.reading d = l.take n) (hstops : page.stops d = decide (l.length ≤ n)) :
    OnTrack d f s'' (log ++ [⟨s', page⟩]) := by
  have hconsistent := hs.consistent h.consistent
  constructor
  · exact hs'.consistent hconsistent
  · intro v hv
    cases List.mem_append.1 hv with
    | inl hv => exact ((h.later v hv).trans hs).trans hs'
    | inr hv =>
      rw [List.mem_singleton.1 hv]
      exact hs'
  · intro v hv x hx
    cases List.mem_append.1 hv with
    | inl hv => exact h.found v hv x hx
    | inr hv =>
      rw [List.mem_singleton.1 hv] at hx ⊢
      rw [hreading] at hx
      exact ((hl.mem_iff x).1 (List.mem_of_mem_take hx)).1
  · rw [delivered_append, hreading, List.pairwise_append]
    refine ⟨h.ordered, hl.ordered.sublist (List.take_sublist n l), ?_⟩
    intro x hx y hy
    exact h.before_ahead hl hx (List.mem_of_mem_take hy)
  · intro v hv key r hr hlasting
    rw [List.getLast?_concat, Option.some.injEq] at hv
    subst hv
    rw [delivered_append, hreading, List.map_append]
    obtain ⟨q, hq, haccepts⟩ := hlasting _ List.mem_concat_self
    rw [hr] at hq
    rw [← Option.some.inj hq] at haccepts
    have hkey := hconsistent.key_of_find? hr
    subst hkey
    cases h.delivered_or_mem hs hl hr haccepts fun v hv => hlasting v (List.mem_append_left _ hv) with
    | inl hdelivered =>
      left
      exact List.mem_append_left _ hdelivered
    | inr hmem =>
      -- The page was cut from a list that has the record, so it is on the page or past its end.
      rw [← List.take_append_drop n l, List.mem_append] at hmem
      cases hmem with
      | inl htaken =>
        left
        apply List.mem_append_right
        exact List.mem_map_of_mem htaken
      | inr hleft =>
        right
        obtain ⟨hlen, x, hx, hbefore⟩ := hl.exists_before hn hleft
        constructor
        · rw [hstops]
          exact decide_eq_false (Nat.not_le.2 hlen)
        · refine ⟨x, ?_, hbefore⟩
          rw [List.getLast?_append, hx]
          rfl

end OnTrack

theorem Walk.onTrack {f : Filter} {count : Int32} {s : MemoryStore ρ} {log : List (Visit ρ)}
    (h : Walk f count s log) : OnTrack (.ofCount count) f s log := by
  induction h with
  | start hs => exact .start hs.consistent
  | write _ hw ih => exact ih.write (.step .refl hw)
  | first _ hserved ih =>
    obtain ⟨hs', hs''⟩ := hserved.later
    obtain ⟨l, n, hn, hl, hreading, hstops⟩ := hserved.exists_ahead ih.consistent .edge
    exact ih.visit hs' hs'' hn hl hreading hstops
  | @next s s' s'' log v cursor page _ _ hcursor hserved ih =>
    obtain ⟨hs', hs''⟩ := hserved.later
    rw [Page.next?_eq] at hcursor
    obtain ⟨r, hr, hcursor⟩ := Option.map_eq_some_iff.1 hcursor
    have hlast : (delivered (.ofCount count) (log ++ [v])).getLast? = some r := by
      rw [delivered_append, List.getLast?_append, hr]
      rfl
    obtain ⟨x, hx, hxr⟩ := ih.stored (List.mem_of_getLast? hlast)
    rw [← hcursor] at hserved
    obtain ⟨l, n, hn, hl, hreading, hstops⟩ := hserved.exists_ahead ih.consistent (.past r x hx hxr)
    apply ih.visit hs' hs'' hn _ hreading hstops
    rw [hlast]
    exact hl

theorem walk_exactly_once {f : Filter} {count : Int32} {s : MemoryStore ρ} {log : List (Visit ρ)}
    (h : Walk f count s log) :
    ((delivered (.ofCount count) log).map keyText).Nodup ∧
    ((delivered (.ofCount count) log).Pairwise fun x y =>
      Direction.Before (.ofCount count) (SortKey.ofRecord x) (SortKey.ofRecord y)) ∧
    ∀ v, log.getLast? = some v → v.page.stops (.ofCount count) → ∀ key, Lasting f log key →
      ((delivered (.ofCount count) log).map keyText).count key = 1 := by
  have htrack := h.onTrack
  refine ⟨htrack.nodup, htrack.ordered, ?_⟩
  intro v hv hstops key hlasting
  rw [htrack.nodup.count]
  obtain ⟨r, hr, _⟩ := hlasting v (List.mem_of_getLast? hv)
  cases htrack.covered v hv key r hr hlasting with
  | inl hdelivered => rw [if_pos hdelivered]
  | inr hahead =>
    rw [hstops] at hahead
    cases hahead.1

def interleavedEpochs : MemoryStore Epoch :=
  (Engine.tiedEpochs.upsert (Engine.tiedEpoch 9)).2

def epochVisits : List (Visit Epoch) :=
  [⟨Engine.tiedEpochs, ⟨[Engine.tiedEpoch 300], 2, some ⟨5⟩, some ⟨5⟩, true, false, Engine.laterEpochs⟩⟩,
    ⟨interleavedEpochs, ⟨[Engine.tiedEpoch 10], 3, some ⟨5⟩, some ⟨5⟩, false, true, Engine.laterEpochs⟩⟩]

theorem walk_exactly_once_tied_epochs :
    Walk Engine.laterEpochs 1 interleavedEpochs epochVisits ∧
    Lasting Engine.laterEpochs epochVisits "10" ∧
    ((delivered (.ofCount 1) epochVisits).map keyText).count "10" = 1 := by
  have hfirst : (⟨Engine.tiedEpochs, none⟩ : Listing Epoch).list Engine.laterEpochs none 1 =
      .ok ⟨[Engine.tiedEpoch 300], 2, some ⟨5⟩, some ⟨5⟩, true, false, Engine.laterEpochs⟩ := by
    rfl
  have hnext : (⟨interleavedEpochs, none⟩ : Listing Epoch).list Engine.laterEpochs
      (some (Cursor.ofRecord (Engine.tiedEpoch 300)).encode) 1 =
      .ok ⟨[Engine.tiedEpoch 10], 3, some ⟨5⟩, some ⟨5⟩, false, true, Engine.laterEpochs⟩ := by
    rfl
  have hserved : Walk Engine.laterEpochs 1 Engine.tiedEpochs ([] ++ epochVisits.take 1) :=
    .first (.start Engine.reachable_tiedEpochs) (served_of_list hfirst)
  have hwalk : Walk Engine.laterEpochs 1 interleavedEpochs epochVisits :=
    .next (hserved.write (.upsert _)) rfl rfl (served_of_list hnext)
  have hlasting : Lasting Engine.laterEpochs epochVisits "10" := by
    unfold Lasting epochVisits
    rw [List.forall_mem_cons, List.forall_mem_singleton]
    exact ⟨⟨Engine.tiedEpoch 10, by decide +kernel⟩, ⟨Engine.tiedEpoch 10, by decide +kernel⟩⟩
  exact ⟨hwalk, hlasting, (walk_exactly_once hwalk).2.2 _ rfl rfl "10" hlasting⟩

end ChainIndex
