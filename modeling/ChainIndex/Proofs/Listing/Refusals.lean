import ChainIndex.Proofs.Filter.FieldNames
import ChainIndex.Proofs.Listing.Caching
import ChainIndex.Proofs.Store.Frames

/-!
This module contains the errors that a listing over a store in memory is answered with. There are four of them, and
each is given only where none of those before it is. The cache hides none.
-/

namespace ChainIndex

variable {ρ κ : Type} [RecordKey κ] [Record ρ κ]

open Condition (PlainName)

theorem Filter.ensureValid_eq_error_of_misnamed {f : Filter} {c : Condition} (h : f.FirstMisnamed c) :
    f.ensureValid = .error (FilterFault.badField c.field).toError := by
  unfold ensureValid
  rw [validate_eq_error_iff.2 ⟨c, h, rfl⟩]
  rfl

namespace Engine

/--
Why a listing has no page to answer with. Of several reasons the first one is given.
-/
inductive Refused (s : MemoryStore ρ) (f : Filter) (count : Int32) : Option String → IndexError → Prop where
  | size {token : Option String} (h : count.toInt = 0) : Refused s f count token .invalidPageSize
  | cursor {token : String} {fault : CursorFault} (hcount : count.toInt ≠ 0)
    (h : (Cursor.decode (Record.kind ρ) token : Except CursorFault (Cursor κ)) = .error fault) :
    Refused s f count (some token) (.invalidCursor fault.message)
  | filter {token : Option String} {c : Condition} (hcount : count.toInt ≠ 0)
    (htoken : ∀ t ∈ token, ∃ cursor : Cursor κ, Cursor.decode (Record.kind ρ) t = .ok cursor)
    (h : f.FirstMisnamed c) :
    Refused s f count token (.invalidFilter (FilterFault.badField c.field).message)
  | notFound {token : String} {cursor : Cursor κ} (hcount : count.toInt ≠ 0)
    (htoken : Cursor.decode (Record.kind ρ) token = .ok cursor)
    (hf : ∀ c ∈ f.conditions, PlainName c.field)
    (h : ∀ r, s.find? (RecordKey.encode cursor.key) = some r → MemoryStore.accepts f r = false) :
    Refused s f count (some token) (.recordNotFound (Record.kind ρ) (RecordKey.encode cursor.key))

structure Admitted (s : MemoryStore ρ) (f : Filter) (count : Int32) (token : Option String) : Prop where
  count : count.toInt ≠ 0
  filter : ∀ c ∈ f.conditions, PlainName c.field
  token : ∀ t ∈ token, ∃ (cursor : Cursor κ) (r : ρ), Cursor.decode (Record.kind ρ) t = .ok cursor ∧
    s.find? (RecordKey.encode cursor.key) = some r ∧ MemoryStore.accepts f r = true

variable {s : MemoryStore ρ} {f : Filter} {count : Int32} {token : Option String}

theorem refused_of_unread (hcount : count.toInt ≠ 0)
    (h : ¬∀ t ∈ token, ∃ cursor : Cursor κ, Cursor.decode (Record.kind ρ) t = .ok cursor) :
    ∃ e, Refused s f count token e := by
  cases token with
  | none => exact absurd nofun h
  | some t =>
    cases hcursor : (Cursor.decode (Record.kind ρ) t : Except CursorFault (Cursor κ)) with
    | error fault => exact ⟨_, .cursor hcount hcursor⟩
    | ok cursor =>
      refine absurd ?_ h
      rintro _ ⟨⟩
      exact ⟨cursor, hcursor⟩

theorem refused_or_admitted (s : MemoryStore ρ) (f : Filter) (count : Int32) (token : Option String) :
    (∃ e, Refused s f count token e) ∨ Admitted s f count token := by
  by_cases hcount : count.toInt = 0
  · left
    exact ⟨_, .size hcount⟩
  by_cases htoken : ∀ t ∈ token, ∃ cursor : Cursor κ, Cursor.decode (Record.kind ρ) t = .ok cursor
  · cases hf : f.validate with
    | error fault =>
      obtain ⟨c, hc, _⟩ := Filter.validate_eq_error_iff.1 hf
      left
      exact ⟨_, .filter hcount htoken hc⟩
    | ok _ =>
      have hplain := Filter.validate_eq_ok_iff.1 hf
      cases token with
      | none =>
        right
        exact ⟨hcount, hplain, nofun⟩
      | some t =>
        obtain ⟨cursor, hcursor⟩ := htoken t rfl
        by_cases hfound : ∃ r, s.find? (RecordKey.encode cursor.key) = some r ∧ MemoryStore.accepts f r = true
        · obtain ⟨r, hr, haccepts⟩ := hfound
          right
          refine ⟨hcount, hplain, ?_⟩
          rintro _ ⟨⟩
          exact ⟨cursor, r, hcursor, hr, haccepts⟩
        · left
          refine ⟨_, .notFound hcount hcursor hplain ?_⟩
          intro r hr
          apply eq_false_of_ne_true
          intro haccepts
          exact hfound ⟨r, hr, haccepts⟩
  · left
    exact refused_of_unread hcount htoken

theorem exists_ofCount (h : count.toInt ≠ 0) : ∃ request, PageRequest.ofCount count = .ok request := by
  unfold PageRequest.ofCount
  rw [if_neg h]
  exact ⟨_, rfl⟩

theorem load_of_misnamed {e : IndexError} (hf : f.ensureValid = .error e) (window : Window) (n : Nat) :
    Page.load s f window n = .error e := by
  have hscan : RecordStore.scan s f window.scanRange (Page.probe n) = _ :=
    s.scan_eq_error hf window.scanRange (Page.probe n)
  unfold Page.load
  rw [hscan]
  rfl

theorem past_of_misnamed {e : IndexError} (hf : f.ensureValid = .error e) (cursor : Cursor κ) (direction : Direction) :
    Window.past s f cursor direction = .error e := by
  have hordinal : RecordStore.ordinalIn s cursor.key f = .error e := by
    dsimp only [RecordStore.ordinalIn, MemoryStore.ordinalIn]
    rw [hf]
    rfl
  unfold Window.past
  rw [hordinal]
  rfl

theorem past_of_not_found (hf : f.ensureValid = .ok ()) {cursor : Cursor κ}
    (h : ∀ r, s.find? (RecordKey.encode cursor.key) = some r → MemoryStore.accepts f r = false)
    (direction : Direction) :
    Window.past s f cursor direction = .error (.recordNotFound cursor.kind (RecordKey.encode cursor.key)) := by
  have hfound : (s.find? (RecordKey.encode cursor.key)).filter (MemoryStore.accepts f) = none := by
    rw [Option.filter_eq_none_iff]
    intro r hr
    rw [h r hr]
    exact Bool.false_ne_true
  have hordinal : RecordStore.ordinalIn s cursor.key f = .ok none := by
    dsimp only [RecordStore.ordinalIn, MemoryStore.ordinalIn]
    rw [hf, hfound]
    rfl
  unfold Window.past
  rw [hordinal]
  rfl

theorem list_of_refused {e : IndexError} (h : Refused s f count token e) :
    (⟨s, none⟩ : Listing ρ).list f token count = .error e := by
  rw [list_uncached]
  -- Every reason stops the listing at a step of its own, and tells that the steps before it have passed.
  cases h with
  | size h =>
    unfold PageRequest.ofCount
    rw [if_pos h]
    rfl
  | cursor hcount h =>
    obtain ⟨request, hrequest⟩ := exists_ofCount hcount
    rw [hrequest, Option.mapM_some, h]
    rfl
  | filter hcount htoken h =>
    obtain ⟨request, hrequest⟩ := exists_ofCount hcount
    have hf := Filter.ensureValid_eq_error_of_misnamed h
    rw [hrequest]
    cases token with
    | none => exact load_of_misnamed hf _ _
    | some t =>
      obtain ⟨cursor, hcursor⟩ := htoken t rfl
      have hpast := past_of_misnamed (s := s) hf cursor request.direction
      rw [Option.mapM_some, hcursor]
      dsimp only [Bind.bind, Except.bind, Functor.map, Except.map, Except.mapError, Window.resolve]
      rw [hpast]
      rfl
  | notFound hcount htoken hplain h =>
    obtain ⟨request, hrequest⟩ := exists_ofCount hcount
    have hf := Filter.ensureValid_eq_ok_iff.2 (Filter.validate_eq_ok_iff.2 hplain)
    have hpast := past_of_not_found hf h request.direction
    rw [hrequest, Option.mapM_some, htoken]
    dsimp only [Bind.bind, Except.bind, Functor.map, Except.map, Except.mapError, Window.resolve]
    rw [hpast, Cursor.kind_of_decode htoken]

theorem exists_page_of_admitted (hs : s.Consistent) (h : Admitted s f count token) :
    ∃ page, (⟨s, none⟩ : Listing ρ).list f token count = .ok page := by
  have hf := Filter.ensureValid_eq_ok_iff.2 (Filter.validate_eq_ok_iff.2 h.filter)
  have hcount := h.count
  cases token with
  | none =>
    by_cases hpos : 0 < count.toInt
    · exact ⟨_, list_top hs hf hpos⟩
    · have hneg : count.toInt < 0 := by omega
      exact ⟨_, list_bottom hs hf hneg⟩
  | some t =>
    obtain ⟨cursor, r, hcursor, hr, haccepts⟩ := h.token t rfl
    obtain ⟨i, hi, ht⟩ := exists_of_found hs hcursor hr haccepts
    by_cases hpos : 0 < count.toInt
    · exact ⟨_, list_below hs hf hpos hi ht⟩
    · have hneg : count.toInt < 0 := by omega
      exact ⟨_, list_above hs hf hneg hi ht⟩

theorem list_cases (g : Listing ρ) (f : Filter) (token : Option String) (count : Int32) :
    (token = none ∧ f = .all ∧ 0 < count.toInt ∧ ∃ page, g.list f token count = .ok page) ∨
      g.list f token count = (⟨g.store, none⟩ : Listing ρ).list f token count := by
  by_cases hhit : token = none ∧ f = .all ∧ 0 < count.toInt ∧ (g.recentPage count.toInt.natAbs).isSome = true
  · obtain ⟨rfl, rfl, hcount, hsome⟩ := hhit
    obtain ⟨page, hpage⟩ := Option.isSome_iff_exists.1 hsome
    left
    exact ⟨rfl, rfl, hcount, page, list_of_recentPage hcount hpage⟩
  · right
    apply list_eq_uncached_of
    intro htoken hf hcount page hpage
    have hsome : (g.recentPage count.toInt.natAbs).isSome = true := by
      rw [hpage, Option.isSome_some]
    exact absurd ⟨htoken, hf, hcount, hsome⟩ hhit

theorem not_refused_top {e : IndexError} (hcount : 0 < count.toInt) : ¬Refused s .all count none e := by
  intro h
  cases h with
  | size h => omega
  | filter _ _ h =>
    obtain ⟨before, after, hsplit, _⟩ := h
    cases before <;> cases hsplit

theorem list_eq_error_iff {g : Listing ρ} (hs : g.store.Consistent) {e : IndexError} :
    g.list f token count = .error e ↔ Refused g.store f count token e := by
  rcases g.list_cases f token count with ⟨rfl, rfl, hcount, page, hpage⟩ | huncached
  -- The cache hides no error: there is none in what it is asked for.
  · rw [hpage]
    constructor
    · intro h
      cases h
    · intro h
      exact absurd h (not_refused_top hcount)
  · rw [huncached]
    constructor
    · intro h
      rcases refused_or_admitted g.store f count token with ⟨e', hrefused⟩ | hadmitted
      · rw [list_of_refused hrefused, Except.error.injEq] at h
        rwa [← h]
      · obtain ⟨page, hpage⟩ := exists_page_of_admitted hs hadmitted
        rw [hpage] at h
        cases h
    · exact list_of_refused

theorem exists_page_iff {g : Listing ρ} (hs : g.store.Consistent) :
    (∃ page, g.list f token count = .ok page) ↔ Admitted g.store f count token := by
  constructor
  · rintro ⟨page, hpage⟩
    rcases refused_or_admitted g.store f count token with ⟨e, hrefused⟩ | hadmitted
    · rw [(list_eq_error_iff hs).2 hrefused] at hpage
      cases hpage
    · exact hadmitted
  · intro hadmitted
    rcases g.list_cases f token count with ⟨_, _, _, hpage⟩ | huncached
    · exact hpage
    · rw [huncached]
      exact exists_page_of_admitted hs hadmitted

end Engine

end ChainIndex
