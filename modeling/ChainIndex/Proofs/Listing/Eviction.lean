import ChainIndex.Proofs.Listing.PointReads
import Mathlib.Data.List.Induction

/-!
This module contains the proof of which records a cache holds, whatever it has been told: the queue and the
records never part, what is held under a key is what was put there last, and the record that leaves is the one
that has been held the longest.
-/

namespace ChainIndex

namespace OrderedMap

variable {α β : Type} [LT α]

theorem isSome_get?_erase_iff [DecidableEq α] {m : OrderedMap α β} {a k : α} :
    ((m.erase a).get? k).isSome ↔ k ≠ a ∧ (m.get? k).isSome := by
  by_cases hk : k = a
  · simp [hk]
  · simp [hk, get?_erase_of_ne]

variable [LE α] [Std.LawfulOrderLT α]

theorem nodup_keys (m : OrderedMap α β) : (m.toList.map Prod.fst).Nodup := by
  apply List.pairwise_map.2
  apply m.ascending.imp
  intro x y h
  exact Std.ne_of_lt h

theorem mem_keys_iff [DecidableEq α] {m : OrderedMap α β} {a : α} :
    a ∈ m.toList.map Prod.fst ↔ (m.get? a).isSome := by
  rw [List.mem_map, Option.isSome_iff_exists]
  constructor
  · rintro ⟨⟨_, b⟩, hmem, rfl⟩
    exact ⟨b, mem_toList_iff.1 hmem⟩
  · rintro ⟨b, hb⟩
    exact ⟨(a, b), mem_toList_iff.2 hb, rfl⟩

variable [Std.IsLinearOrder α]

theorem isSome_get?_insert_iff [DecidableLT α] [DecidableEq α] {m : OrderedMap α β} {a k : α} {b : β} :
    ((m.insert a b).get? k).isSome ↔ k = a ∨ (m.get? k).isSome := by
  by_cases hk : k = a
  · simp [hk]
  · simp [hk, get?_insert_of_ne]

end OrderedMap

variable {ρ κ : Type}

namespace Cache

structure Lists (queue : List String) (held : OrderedMap String ρ) : Prop where
  nodup : queue.Nodup
  mem_iff : ∀ key, key ∈ queue ↔ (held.get? key).isSome

namespace Lists

variable {queue : List String} {held : OrderedMap String ρ} {key : String}

theorem size_eq (h : Lists queue held) : held.size = queue.length := by
  have hkeys : (held.toList.map Prod.fst).Perm queue := by
    apply (List.perm_ext_iff_of_nodup held.nodup_keys h.nodup).2
    intro key
    rw [OrderedMap.mem_keys_iff, h.mem_iff]
  rw [← hkeys.length_eq, List.length_map]
  rfl

theorem renew (h : Lists queue held) (hkey : key ∈ queue) (r : ρ) : Lists queue (held.insert key r) := by
  constructor
  · exact h.nodup
  · intro other
    rw [OrderedMap.isSome_get?_insert_iff, h.mem_iff]
    constructor
    · exact Or.inr
    · rintro (rfl | hother)
      · exact (h.mem_iff _).1 hkey
      · exact hother

theorem add (h : Lists queue held) (hkey : key ∉ queue) (r : ρ) :
    Lists (queue ++ [key]) (held.insert key r) := by
  constructor
  · apply List.nodup_append.2
    refine ⟨h.nodup, List.pairwise_singleton _ key, ?_⟩
    intro a ha b hb
    rw [List.mem_singleton.1 hb]
    intro hab
    rw [hab] at ha
    exact hkey ha
  · intro other
    rw [OrderedMap.isSome_get?_insert_iff, List.mem_append, List.mem_singleton, h.mem_iff]
    apply Or.comm

theorem erase (h : Lists (key :: queue) held) : Lists queue (held.erase key) := by
  have hnodup := List.nodup_cons.1 h.nodup
  constructor
  · exact hnodup.2
  · intro other
    rw [OrderedMap.isSome_get?_erase_iff, ← h.mem_iff, List.mem_cons]
    constructor
    · intro hother
      refine ⟨?_, Or.inr hother⟩
      intro heq
      rw [heq] at hother
      exact hnodup.1 hother
    · rintro ⟨hne, hother⟩
      exact hother.resolve_left hne

end Lists

theorem evict_of_le {capacity : Nat} {queue : List String} {held : OrderedMap String ρ}
    (h : held.size ≤ capacity) : evict capacity queue held = (queue, held) := by
  cases queue with
  | nil => rfl
  | cons key queue => rw [evict, if_neg (Nat.not_lt.2 h)]

theorem evict_cons_of_lt {capacity : Nat} {key : String} {queue : List String} {held : OrderedMap String ρ}
    (h : capacity < held.size) :
    evict capacity (key :: queue) held = evict capacity queue (held.erase key) := by
  rw [evict, if_pos h]

namespace Lists

variable {capacity : Nat} {queue : List String} {held : OrderedMap String ρ} {key : String}

theorem evict_renew (h : Lists queue held) (hkey : key ∈ queue) (hbound : queue.length ≤ capacity) (r : ρ) :
    evict capacity queue (held.insert key r) = (queue, held.insert key r) := by
  apply evict_of_le
  rw [(h.renew hkey r).size_eq]
  exact hbound

theorem evict_add (h : Lists queue held) (hkey : key ∉ queue) (hroom : queue.length < capacity) (r : ρ) :
    evict capacity (queue ++ [key]) (held.insert key r) = (queue ++ [key], held.insert key r) := by
  apply evict_of_le
  rw [(h.add hkey r).size_eq, List.length_append, List.length_singleton]
  exact hroom

theorem evict_replace {first : String} {rest : List String} (h : Lists (first :: rest) held)
    (hkey : key ∉ first :: rest) (hfull : (first :: rest).length = capacity) (r : ρ) :
    evict capacity (first :: rest ++ [key]) (held.insert key r) =
      (rest ++ [key], (held.insert key r).erase first) := by
  have hadded := h.add hkey r
  rw [List.cons_append] at hadded ⊢
  rw [evict_cons_of_lt, evict_of_le]
  · apply Nat.le_of_eq
    rw [hadded.erase.size_eq, List.length_append, List.length_singleton, ← hfull, List.length_cons]
  · rw [hadded.size_eq, List.length_cons, List.length_append, List.length_singleton, ← hfull, List.length_cons]
    apply Nat.lt_succ_self

end Lists

inductive Update (ρ : Type) where
  | remember (r : ρ)
  | write (r : ρ) (inserted : Bool)
  | warm (top : List ρ) (total : Nat)

def Update.record? : Update ρ → Option ρ
  | .remember r => some r
  | .write r _ => some r
  | .warm _ _ => none

variable [RecordKey κ] [Record ρ κ]

def apply (c : Cache ρ) : Update ρ → Cache ρ
  | .remember r => c.remember r
  | .write r inserted => c.recordWritten r inserted
  | .warm top total => c.warm top total

def after (c : Cache ρ) (updates : List (Update ρ)) : Cache ρ :=
  updates.foldl apply c

@[simp]
theorem after_concat (c : Cache ρ) (updates : List (Update ρ)) (u : Update ρ) :
    c.after (updates ++ [u]) = (c.after updates).apply u := by
  unfold after
  rw [List.foldl_append]
  rfl

@[simp]
theorem recordCapacity_apply (c : Cache ρ) (u : Update ρ) : (c.apply u).recordCapacity = c.recordCapacity := by
  cases u with
  | remember r => exact recordCapacity_remember c r
  | write r inserted => exact recordCapacity_remember _ r
  | warm top total => rfl

@[simp]
theorem recentCapacity_apply (c : Cache ρ) (u : Update ρ) : (c.apply u).recentCapacity = c.recentCapacity := by
  cases u with
  | remember r => exact recentCapacity_remember c r
  | write r inserted => exact recentCapacity_recordWritten c r inserted
  | warm top total => rfl

theorem recordCapacity_after (c : Cache ρ) (updates : List (Update ρ)) :
    (c.after updates).recordCapacity = c.recordCapacity := by
  induction updates using List.reverseRecOn with
  | nil => rfl
  | append_singleton updates u ih => rw [after_concat, recordCapacity_apply, ih]

theorem recentCapacity_after (c : Cache ρ) (updates : List (Update ρ)) :
    (c.after updates).recentCapacity = c.recentCapacity := by
  induction updates using List.reverseRecOn with
  | nil => rfl
  | append_singleton updates u ih => rw [after_concat, recentCapacity_apply, ih]

/-! ### One update -/

theorem queue_recordWritten (c : Cache ρ) (r : ρ) (inserted : Bool) :
    (c.recordWritten r inserted).queue = (c.remember r).queue := by
  unfold recordWritten remember
  by_cases hcapacity : c.recordCapacity = 0
  · rw [if_pos hcapacity, if_pos hcapacity]
  · rw [if_neg hcapacity, if_neg hcapacity]

theorem held_recordWritten (c : Cache ρ) (r : ρ) (inserted : Bool) :
    (c.recordWritten r inserted).held = (c.remember r).held := by
  unfold recordWritten remember
  by_cases hcapacity : c.recordCapacity = 0
  · rw [if_pos hcapacity, if_pos hcapacity]
  · rw [if_neg hcapacity, if_neg hcapacity]

theorem held_apply_of_none {u : Update ρ} (h : u.record? = none) (c : Cache ρ) : (c.apply u).held = c.held := by
  cases u with
  | remember r => cases h
  | write r inserted => cases h
  | warm top total => rfl

theorem held_apply_of_some {u : Update ρ} {r : ρ} (h : u.record? = some r) (c : Cache ρ) :
    (c.apply u).held = (c.remember r).held := by
  cases u with
  | remember r =>
    cases h
    rfl
  | write r inserted =>
    cases h
    apply held_recordWritten
  | warm top total => cases h

structure Orderly (c : Cache ρ) : Prop where
  lists : Lists c.queue c.held
  bounded : c.queue.length ≤ c.recordCapacity

/--
What becomes of the queue and of the records that are held with one update. The record that leaves is the one
at the front of the queue, and it leaves only if there is no room for a record that enters.
-/
inductive Turnover (c : Cache ρ) (u : Update ρ) : List String → OrderedMap String ρ → Prop where
  | passed (h : ∀ r, u.record? = some r → c.recordCapacity = 0) : Turnover c u c.queue c.held
  | renewed {r : ρ} (hr : u.record? = some r) (hkey : keyText r ∈ c.queue) :
    Turnover c u c.queue (c.held.insert (keyText r) r)
  | added {r : ρ} (hr : u.record? = some r) (hkey : keyText r ∉ c.queue)
    (hroom : c.queue.length < c.recordCapacity) :
    Turnover c u (c.queue ++ [keyText r]) (c.held.insert (keyText r) r)
  | replaced {r : ρ} {first : String} {rest : List String} (hr : u.record? = some r) (hkey : keyText r ∉ c.queue)
    (hqueue : c.queue = first :: rest) (hfull : c.queue.length = c.recordCapacity) :
    Turnover c u (rest ++ [keyText r]) ((c.held.insert (keyText r) r).erase first)

namespace Orderly

variable {c : Cache ρ}

theorem turnover_remember (h : c.Orderly) {u : Update ρ} {r : ρ} (hr : u.record? = some r) :
    Turnover c u (c.remember r).queue (c.remember r).held := by
  unfold remember
  split
  · next hcapacity =>
    apply Turnover.passed
    intro _ _
    exact hcapacity
  · next hcapacity =>
    dsimp only
    by_cases hkey : keyText r ∈ c.queue
    · rw [if_pos ((h.lists.mem_iff _).1 hkey), h.lists.evict_renew hkey h.bounded]
      exact .renewed hr hkey
    · rw [if_neg fun hheld => hkey ((h.lists.mem_iff _).2 hheld)]
      by_cases hroom : c.queue.length < c.recordCapacity
      · rw [h.lists.evict_add hkey hroom]
        exact .added hr hkey hroom
      · have hfull : c.queue.length = c.recordCapacity := Nat.le_antisymm h.bounded (Nat.not_lt.1 hroom)
        cases hqueue : c.queue with
        | nil =>
          rw [hqueue] at hfull
          exact absurd hfull.symm hcapacity
        | cons first rest =>
          have hlists := h.lists
          have hother := hkey
          have hlength := hfull
          rw [hqueue] at hlists hother hlength
          rw [hlists.evict_replace hother hlength]
          exact .replaced hr hkey hqueue hfull

theorem turnover (h : c.Orderly) (u : Update ρ) : Turnover c u (c.apply u).queue (c.apply u).held := by
  cases u with
  | remember r => exact h.turnover_remember rfl
  | write r inserted =>
    unfold apply
    rw [queue_recordWritten, held_recordWritten]
    exact h.turnover_remember rfl
  | warm top total =>
    apply Turnover.passed
    intro _ hr
    cases hr

theorem apply (h : c.Orderly) (u : Update ρ) : (c.apply u).Orderly := by
  have hturnover := h.turnover u
  suffices hafter : Lists (c.apply u).queue (c.apply u).held ∧ (c.apply u).queue.length ≤ c.recordCapacity by
    rw [← recordCapacity_apply c u] at hafter
    exact ⟨hafter.1, hafter.2⟩
  generalize (c.apply u).queue = queue, (c.apply u).held = held at hturnover ⊢
  cases hturnover with
  | passed _ => exact ⟨h.lists, h.bounded⟩
  | renewed _ hkey => exact ⟨h.lists.renew hkey _, h.bounded⟩
  | added _ hkey hroom =>
    refine ⟨h.lists.add hkey _, ?_⟩
    rw [List.length_append, List.length_singleton]
    exact hroom
  | @replaced r first rest _ hkey hqueue hfull =>
    have hlists := h.lists.add hkey r
    rw [hqueue] at hlists hfull
    refine ⟨hlists.erase, ?_⟩
    apply Nat.le_of_eq
    rw [List.length_append, List.length_singleton, ← hfull, List.length_cons]

end Orderly

/-! ### The order in which records entered -/

def Holds (c : Cache ρ) (key : String) : Prop :=
  (c.held.get? key).isSome

/--
The key has entered with the update of that number, and has been held ever since.
-/
structure EnteredAt (start : Cache ρ) (updates : List (Update ρ)) (key : String) (i : Nat) : Prop where
  lt : i < updates.length
  absent : ¬(start.after (updates.take i)).Holds key
  held : ∀ j, i < j → j ≤ updates.length → (start.after (updates.take j)).Holds key

def EnteredBefore (start : Cache ρ) (updates : List (Update ρ)) (key other : String) : Prop :=
  ∃ i j, EnteredAt start updates key i ∧ EnteredAt start updates other j ∧ i < j

variable {start : Cache ρ} {updates : List (Update ρ)} {u : Update ρ}

namespace EnteredAt

variable {key : String} {i : Nat}

theorem extend (h : EnteredAt start updates key i) (hheld : (start.after (updates ++ [u])).Holds key) :
    EnteredAt start (updates ++ [u]) key i := by
  have hlt := h.lt
  constructor
  · rw [List.length_append]
    omega
  · rw [List.take_append_of_le_length (Nat.le_of_lt hlt)]
    exact h.absent
  · intro j hij hj
    by_cases hlast : j ≤ updates.length
    · rw [List.take_append_of_le_length hlast]
      exact h.held j hij hlast
    · rw [List.take_of_length_le]
      · exact hheld
      · rw [List.length_append, List.length_singleton]
        omega

theorem last (habsent : ¬(start.after updates).Holds key) (hheld : (start.after (updates ++ [u])).Holds key) :
    EnteredAt start (updates ++ [u]) key updates.length := by
  constructor
  · rw [List.length_append]
    exact Nat.lt_succ_self _
  · rw [List.take_left]
    exact habsent
  · intro j hj _
    rw [List.take_of_length_le]
    · exact hheld
    · rw [List.length_append]
      exact hj

end EnteredAt

/--
Each key of the queue has entered at some time, and those in front of it have entered before it.
-/
structure InTurn (start : Cache ρ) (updates : List (Update ρ)) (queue : List String) : Prop where
  entered : ∀ key ∈ queue, ∃ i, EnteredAt start updates key i
  ordered : queue.Pairwise (EnteredBefore start updates)

namespace InTurn

variable {queue kept : List String} {key : String}

theorem extend (h : InTurn start updates queue) (hkept : kept.Sublist queue)
    (hheld : ∀ other ∈ kept, (start.after (updates ++ [u])).Holds other) :
    InTurn start (updates ++ [u]) kept := by
  constructor
  · intro other hother
    obtain ⟨i, hi⟩ := h.entered other (hkept.subset hother)
    exact ⟨i, hi.extend (hheld other hother)⟩
  · apply (h.ordered.sublist hkept).imp_of_mem
    rintro a b ha hb ⟨i, j, hi, hj, hij⟩
    exact ⟨i, j, hi.extend (hheld a ha), hj.extend (hheld b hb), hij⟩

theorem add (h : InTurn start updates queue) (hkept : kept.Sublist queue)
    (hheld : ∀ other ∈ kept ++ [key], (start.after (updates ++ [u])).Holds other)
    (hkey : ¬(start.after updates).Holds key) : InTurn start (updates ++ [u]) (kept ++ [key]) := by
  have hothers : ∀ other ∈ kept, (start.after (updates ++ [u])).Holds other :=
    fun other hother => hheld other (List.mem_append_left _ hother)
  have hrest := h.extend hkept hothers
  have hlast := EnteredAt.last hkey (hheld key List.mem_concat_self)
  constructor
  · intro other hother
    cases List.mem_append.1 hother with
    | inl hother => exact hrest.entered other hother
    | inr hother =>
      rw [List.mem_singleton.1 hother]
      exact ⟨_, hlast⟩
  · apply List.pairwise_append.2
    refine ⟨hrest.ordered, List.pairwise_singleton _ _, ?_⟩
    intro a ha b hb
    obtain ⟨i, hi⟩ := h.entered a (hkept.subset ha)
    rw [List.mem_singleton.1 hb]
    exact ⟨i, _, hi.extend (hothers a ha), hlast, hi.lt⟩

theorem apply (h : InTurn start updates (start.after updates).queue) (horderly : (start.after updates).Orderly)
    (u : Update ρ) : InTurn start (updates ++ [u]) (start.after (updates ++ [u])).queue := by
  have hheld : ∀ key ∈ (start.after (updates ++ [u])).queue, (start.after (updates ++ [u])).Holds key := by
    rw [after_concat]
    exact fun key => ((horderly.apply u).lists.mem_iff key).1
  have hturnover := horderly.turnover u
  rw [← after_concat] at hturnover
  have habsent : ∀ key, key ∉ (start.after updates).queue → ¬(start.after updates).Holds key :=
    fun key hkey hholds => hkey ((horderly.lists.mem_iff key).2 hholds)
  generalize (start.after (updates ++ [u])).queue = queue at hheld hturnover ⊢
  generalize (start.after (updates ++ [u])).held = held at hturnover
  cases hturnover with
  | passed _ => exact h.extend (List.Sublist.refl _) hheld
  | renewed _ _ => exact h.extend (List.Sublist.refl _) hheld
  | added _ hkey _ => exact h.add (List.Sublist.refl _) hheld (habsent _ hkey)
  | replaced _ hkey hqueue _ =>
    apply h.add _ hheld (habsent _ hkey)
    rw [hqueue]
    apply List.sublist_cons_self

end InTurn

/-! ### What is held -/

def latest? (updates : List (Update ρ)) (key : String) : Option ρ :=
  ((updates.filterMap Update.record?).filter fun r => keyText r = key).getLast?

theorem latest?_concat_of_none {u : Update ρ} (h : u.record? = none) (updates : List (Update ρ)) (key : String) :
    latest? (updates ++ [u]) key = latest? updates key := by
  unfold latest?
  rw [List.filterMap_append, List.filterMap_cons_none h]
  simp

theorem latest?_concat_of_some {u : Update ρ} {r : ρ} (h : u.record? = some r) (updates : List (Update ρ))
    (key : String) :
    latest? (updates ++ [u]) key = if keyText r = key then some r else latest? updates key := by
  unfold latest?
  rw [List.filterMap_append, List.filterMap_cons_some h, List.filter_append]
  split
  · next hkey => simp [hkey]
  · next hkey => simp [hkey]

theorem keyText_of_latest? {key : String} {r : ρ} (h : latest? updates key = some r) : keyText r = key := by
  have hmem := List.mem_filter.1 (List.mem_of_getLast? h)
  exact of_decide_eq_true hmem.2

namespace Orderly

variable {c : Cache ρ} {r : ρ} {key : String}

theorem get?_apply_self (h : c.Orderly) (hr : u.record? = some r) (hcapacity : c.recordCapacity ≠ 0) :
    (c.apply u).held.get? (keyText r) = some r := by
  have hturnover := h.turnover u
  generalize (c.apply u).queue = queue, (c.apply u).held = held at hturnover ⊢
  cases hturnover with
  | passed hpassed => exact absurd (hpassed r hr) hcapacity
  | renewed hr' _ =>
    rw [Option.some.inj (hr.symm.trans hr')]
    apply OrderedMap.get?_insert_self
  | added hr' _ _ =>
    rw [Option.some.inj (hr.symm.trans hr')]
    apply OrderedMap.get?_insert_self
  | @replaced r' first rest hr' hkey hqueue _ =>
    rw [Option.some.inj (hr.symm.trans hr')]
    have hne : keyText r' ≠ first := by
      intro heq
      apply hkey
      rw [hqueue, heq]
      exact List.mem_cons_self
    rw [OrderedMap.get?_erase_of_ne _ hne]
    apply OrderedMap.get?_insert_self

theorem latest?_apply (h : c.Orderly)
    (hlatest : ∀ key r, c.held.get? key = some r → latest? updates key = some r)
    (hkey : (c.apply u).held.get? key = some r) : latest? (updates ++ [u]) key = some r := by
  cases hu : u.record? with
  | none =>
    rw [held_apply_of_none hu] at hkey
    rw [latest?_concat_of_none hu]
    exact hlatest key r hkey
  | some r' =>
    rw [held_apply_of_some hu] at hkey
    rw [latest?_concat_of_some hu]
    by_cases hcapacity : c.recordCapacity = 0
    -- Nothing can be held without room.
    · rw [held_remember_of_zero hcapacity] at hkey
      have hmem := (h.lists.mem_iff key).2 (Option.isSome_of_eq_some hkey)
      have hbounded := h.bounded
      rw [hcapacity] at hbounded
      exact absurd (List.length_pos_of_mem hmem) (Nat.not_lt.2 hbounded)
    · rcases get?_of_get?_remember hcapacity hkey with ⟨hsame, hr⟩ | ⟨hother, hkept⟩
      · rw [if_pos hsame.symm, hr]
      · rw [if_neg (Ne.symm hother)]
        exact hlatest key r hkept

theorem eq_first_of_leaves (h : c.Orderly) (hheld : c.Holds key) (hleft : ¬(c.apply u).Holds key) :
    c.queue.length = c.recordCapacity ∧ ∃ rest, c.queue = key :: rest := by
  have hturnover := h.turnover u
  unfold Holds at hheld hleft
  generalize (c.apply u).queue = queue, (c.apply u).held = held at hturnover hleft
  cases hturnover with
  | passed _ => exact absurd hheld hleft
  | renewed _ _ => exact absurd (OrderedMap.isSome_get?_insert_iff.2 (.inr hheld)) hleft
  | added _ _ _ => exact absurd (OrderedMap.isSome_get?_insert_iff.2 (.inr hheld)) hleft
  | @replaced r first rest _ _ hqueue hfull =>
    have hfirst : key = first := by
      apply Decidable.byContradiction
      intro hne
      apply hleft
      rw [OrderedMap.isSome_get?_erase_iff, OrderedMap.isSome_get?_insert_iff]
      exact ⟨hne, .inr hheld⟩
    rw [hfirst]
    exact ⟨hfull, rest, hqueue⟩

end Orderly

theorem InTurn.enteredBefore_of_leaves {key other : String}
    (h : InTurn start updates (start.after updates).queue) (horderly : (start.after updates).Orderly)
    (hheld : (start.after updates).Holds key) (hleft : ¬((start.after updates).apply u).Holds key)
    (hother : (start.after updates).Holds other) (hne : other ≠ key) : EnteredBefore start updates key other := by
  obtain ⟨_, rest, hqueue⟩ := horderly.eq_first_of_leaves hheld hleft
  have hmem := (horderly.lists.mem_iff other).2 hother
  have hordered := h.ordered
  rw [hqueue] at hmem hordered
  exact List.rel_of_pairwise_cons hordered ((List.mem_cons.1 hmem).resolve_left hne)

/-! ### Any number of updates -/

section Empty

variable (recordCapacity recentCapacity : Nat)

omit [RecordKey κ] [Record ρ κ] in
theorem orderly_empty : (empty recordCapacity recentCapacity : Cache ρ).Orderly := by
  constructor
  · constructor
    · exact List.nodup_nil
    · intro key
      simp [empty]
  · exact Nat.zero_le _

theorem orderly_after (updates : List (Update ρ)) :
    ((empty recordCapacity recentCapacity).after updates).Orderly := by
  induction updates using List.reverseRecOn with
  | nil => apply orderly_empty
  | append_singleton updates u ih =>
    rw [after_concat]
    exact ih.apply u

theorem inTurn_after (updates : List (Update ρ)) :
    InTurn (empty recordCapacity recentCapacity) updates
      ((empty recordCapacity recentCapacity).after updates).queue := by
  induction updates using List.reverseRecOn with
  | nil => exact ⟨List.forall_mem_nil _, List.Pairwise.nil⟩
  | append_singleton updates u ih => exact ih.apply (orderly_after _ _ updates) u

theorem latest?_after (updates : List (Update ρ)) : ∀ key r,
    ((empty recordCapacity recentCapacity).after updates).held.get? key = some r →
      latest? updates key = some r := by
  induction updates using List.reverseRecOn with
  | nil =>
    intro key r h
    cases h
  | append_singleton updates u ih =>
    intro key r h
    rw [after_concat] at h
    exact (orderly_after _ _ updates).latest?_apply ih h

end Empty

end Cache

end ChainIndex
