import ChainIndex.Proofs.Listing.Eviction
import ChainIndex.Proofs.Text.Utf8Order
import Mathlib.Data.List.Induction

/-!
This module contains the proof of what a cache keeps, whatever it has been told: the records on top stay in
order and within their room, and what is known of the number of all records starts with the first filling.
-/

namespace ChainIndex

variable {ρ κ : Type} [RecordKey κ] [Record ρ κ]

open Cache (keyText place)

theorem mem_foldr_place {top : List ρ} {x : ρ} : x ∈ top.foldr place [] ↔ x ∈ top := by
  induction top with
  | nil => rfl
  | cons r top ih => rw [List.foldr_cons, mem_place, ih, List.mem_cons]

theorem ranked_foldr_place {top : List ρ} (h : (top.map keyText).Nodup) : Ranked (top.foldr place []) := by
  induction top with
  | nil => exact Ranked.nil
  | cons r top ih =>
    rw [List.map_cons, List.nodup_cons] at h
    rw [List.foldr_cons]
    apply (ih h.2).place
    intro x hx heq
    apply h.1
    rw [← heq]
    exact List.mem_map_of_mem (mem_foldr_place.1 hx)

theorem Ranked.exists_partition {l : List ρ} (h : Ranked l) (r : ρ) :
    ∃ above below, l = above ++ below ∧ (∀ x ∈ above, SortKey.ofRecord r < SortKey.ofRecord x) ∧
      ∀ x ∈ below, ¬SortKey.ofRecord r < SortKey.ofRecord x := by
  induction l with
  | nil => exact ⟨[], [], rfl, List.forall_mem_nil _, List.forall_mem_nil _⟩
  | cons y l ih =>
    by_cases hy : SortKey.ofRecord r < SortKey.ofRecord y
    · obtain ⟨above, below, hl, habove, hbelow⟩ := ih h.tail
      exact ⟨y :: above, below, by rw [hl, List.cons_append], List.forall_mem_cons.2 ⟨hy, habove⟩, hbelow⟩
    · refine ⟨[], y :: l, rfl, List.forall_mem_nil _, List.forall_mem_cons.2 ⟨hy, ?_⟩⟩
      intro x hx hlt
      exact hy (Std.lt_trans hlt (h.lt_head hx))

namespace Cache

theorem recent_recordWritten_of_partition {c : Cache ρ} (hbound : c.recent.length ≤ c.recentCapacity) {r : ρ}
    {above below : List ρ} (hparts : (c.recent.filter fun x => keyText x ≠ keyText r) = above ++ below)
    (habove : ∀ x ∈ above, SortKey.ofRecord r < SortKey.ofRecord x)
    (hbelow : ∀ x ∈ below, ¬SortKey.ofRecord r < SortKey.ofRecord x) (inserted : Bool) :
    (c.recordWritten r inserted).recent =
      if above.length < c.recentCapacity then (above ++ r :: below).take c.recentCapacity else above ++ below := by
  have hsettle : settle r c.recent = above ++ r :: below := by
    unfold settle
    rw [hparts, place_append_of_forall_lt habove, place_of_forall_not_lt hbelow]
  rw [recent_recordWritten, hsettle]
  split
  · rfl
  · next hfull =>
    have hlen : (above ++ below).length ≤ c.recent.length := by
      rw [← hparts]
      apply List.length_filter_le
    rw [List.length_append] at hlen
    have hnil : below = [] := List.length_eq_zero_iff.1 (by omega)
    rw [hnil, List.append_nil, List.take_append_of_le_length (by omega), List.take_of_length_le (by omega)]

variable {updates : List (Update ρ)} {u : Update ρ}

theorem ranked_apply {c : Cache ρ} (h : Ranked c.recent)
    (hdistinct : ∀ top total, u = .warm top total → (top.map keyText).Nodup) : Ranked (c.apply u).recent := by
  cases u with
  | remember r =>
    unfold apply
    rwa [recent_remember]
  | write r inserted =>
    unfold apply
    rw [recent_recordWritten]
    exact h.settle.take _
  | warm top total => exact (ranked_foldr_place (hdistinct top total rfl)).take _

theorem length_recent_apply {c : Cache ρ} (h : c.recent.length ≤ c.recentCapacity) (u : Update ρ) :
    (c.apply u).recent.length ≤ c.recentCapacity := by
  cases u with
  | remember r =>
    unfold apply
    rwa [recent_remember]
  | write r inserted =>
    unfold apply
    rw [recent_recordWritten]
    apply List.length_take_le
  | warm top total => apply List.length_take_le

theorem total_apply_eq_none_iff {c : Cache ρ} :
    (c.apply u).total = none ↔ c.total = none ∧ ∀ top total, u ≠ .warm top total := by
  cases u with
  | remember r =>
    unfold apply
    rw [total_remember]
    simp
  | write r inserted =>
    unfold apply
    rw [total_recordWritten]
    cases inserted <;> simp
  | warm top total =>
    unfold apply warm
    simp

/--
What is true of a cache after the updates, and of the next one that it gets.
-/
structure Sound (start : Cache ρ) (updates : List (Update ρ)) : Prop where
  descending : (start.after updates).recent.Pairwise fun x y =>
    Record.ordinal y < Record.ordinal x ∨
      Record.ordinal y = Record.ordinal x ∧ Utf8.bytes (keyText y) < Utf8.bytes (keyText x)
  distinct : ((start.after updates).recent.map keyText).Nodup
  length_recent_le : (start.after updates).recent.length ≤ start.recentCapacity
  /-- The records on top are split in two by any record, as the search for its place takes for granted. -/
  placed : ∀ r inserted, ∃ above below,
    ((start.after updates).recent.filter fun x => keyText x ≠ keyText r) = above ++ below ∧
    (∀ x ∈ above, SortKey.ofRecord r < SortKey.ofRecord x) ∧
    (∀ x ∈ below, ¬SortKey.ofRecord r < SortKey.ofRecord x) ∧
    (start.after (updates ++ [.write r inserted])).recent =
      if above.length < start.recentCapacity then (above ++ r :: below).take start.recentCapacity
      else above ++ below
  size_held_le : (start.after updates).held.size ≤ start.recordCapacity
  latest : ∀ key r, (start.after updates).held.get? key = some r → keyText r = key ∧ latest? updates key = some r
  listed : Lists (start.after updates).queue (start.after updates).held
  inTurn : InTurn start updates (start.after updates).queue
  enters : ∀ (u : Update ρ) r, u.record? = some r → start.recordCapacity ≠ 0 →
    (start.after (updates ++ [u])).held.get? (keyText r) = some r
  leaves : ∀ (u : Update ρ) key, (start.after updates).Holds key → ¬(start.after (updates ++ [u])).Holds key →
    (start.after updates).held.size = start.recordCapacity ∧
      ∀ other, (start.after updates).Holds other → other ≠ key → EnteredBefore start updates key other
  total_eq_none_iff : (start.after updates).total = none ↔ ∀ top total, .warm top total ∉ updates

section Empty

variable (recordCapacity recentCapacity : Nat)

theorem ranked_after {updates : List (Update ρ)}
    (h : ∀ top total, .warm top total ∈ updates → (top.map keyText).Nodup) :
    Ranked ((empty recordCapacity recentCapacity).after updates).recent := by
  induction updates using List.reverseRecOn with
  | nil => exact Ranked.nil
  | append_singleton updates u ih =>
    rw [after_concat]
    apply ranked_apply
    · apply ih
      intro top total hwarm
      exact h top total (List.mem_append_left _ hwarm)
    · intro top total hwarm
      apply h top total
      rw [hwarm]
      exact List.mem_concat_self

theorem length_recent_after (updates : List (Update ρ)) :
    ((empty recordCapacity recentCapacity).after updates).recent.length ≤
      ((empty recordCapacity recentCapacity).after updates).recentCapacity := by
  induction updates using List.reverseRecOn with
  | nil => exact Nat.zero_le _
  | append_singleton updates u ih =>
    rw [after_concat, recentCapacity_apply]
    exact length_recent_apply ih u

theorem total_after_eq_none_iff (updates : List (Update ρ)) :
    ((empty recordCapacity recentCapacity).after updates).total = none ↔
      ∀ top total, .warm top total ∉ updates := by
  induction updates using List.reverseRecOn with
  | nil => simp [after, empty]
  | append_singleton updates u ih =>
    rw [after_concat, total_apply_eq_none_iff, ih]
    constructor
    · rintro ⟨hbefore, hlast⟩ top total hwarm
      cases List.mem_append.1 hwarm with
      | inl hwarm => exact hbefore top total hwarm
      | inr hwarm => exact hlast top total (List.mem_singleton.1 hwarm).symm
    · intro h
      constructor
      · intro top total hwarm
        exact h top total (List.mem_append_left _ hwarm)
      · intro top total hwarm
        apply h top total
        rw [hwarm]
        exact List.mem_concat_self

/--
A cache is sound at any moment, however it came there from an empty one. It takes for granted that a listing
it starts over from holds no key twice.
-/
theorem sound {updates : List (Update ρ)}
    (h : ∀ top total, .warm top total ∈ updates → (top.map keyText).Nodup) :
    Sound (empty recordCapacity recentCapacity) updates := by
  have horderly := orderly_after recordCapacity recentCapacity updates
  have hranked := ranked_after recordCapacity recentCapacity h
  have hinTurn := inTurn_after recordCapacity recentCapacity updates
  have hlength := length_recent_after recordCapacity recentCapacity updates
  have hrecords : ((empty recordCapacity recentCapacity).after updates).recordCapacity = recordCapacity :=
    recordCapacity_after _ updates
  have hrecent : ((empty recordCapacity recentCapacity).after updates).recentCapacity = recentCapacity :=
    recentCapacity_after _ updates
  constructor
  case descending =>
    apply hranked.descending.imp
    intro x y hlt
    rw [Utf8.bytes_lt_iff]
    exact hlt
  case distinct => exact List.pairwise_map.2 hranked.distinct
  case length_recent_le => rwa [hrecent] at hlength
  case placed =>
    intro r inserted
    obtain ⟨above, below, hparts, habove, hbelow⟩ :=
      (hranked.filter fun x => keyText x ≠ keyText r).exists_partition r
    refine ⟨above, below, hparts, habove, hbelow, ?_⟩
    have hwritten := recent_recordWritten_of_partition hlength hparts habove hbelow inserted
    rw [hrecent] at hwritten
    rw [after_concat]
    exact hwritten
  case size_held_le =>
    rw [horderly.lists.size_eq]
    exact Nat.le_trans horderly.bounded (Nat.le_of_eq hrecords)
  case latest =>
    intro key r hkey
    have hlatest := latest?_after _ _ updates key r hkey
    exact ⟨keyText_of_latest? hlatest, hlatest⟩
  case listed => exact horderly.lists
  case inTurn => exact hinTurn
  case enters =>
    intro u r hr hcapacity
    rw [after_concat]
    apply horderly.get?_apply_self hr
    rwa [hrecords]
  case leaves =>
    intro u key hheld hleft
    rw [after_concat] at hleft
    constructor
    · rw [horderly.lists.size_eq, (horderly.eq_first_of_leaves hheld hleft).1]
      exact hrecords
    · intro other hother hne
      exact hinTurn.enteredBefore_of_leaves horderly hheld hleft hother hne
  case total_eq_none_iff => apply total_after_eq_none_iff

end Empty

def returningEpoch : List (Update Epoch) :=
  [.remember (Engine.tiedEpoch 7), .write (Engine.tiedEpoch 10) true, .write (Engine.tiedEpoch 7) false,
    .warm [Engine.tiedEpoch 300, Engine.tiedEpoch 7] 2, .remember (Engine.tiedEpoch 300),
    .remember (Engine.tiedEpoch 7)]

theorem sound_returning_epoch :
    ((empty 2 2).after (returningEpoch.take 3)).queue = ["7", "10"] ∧
    ((empty 2 2).after (returningEpoch.take 5)).queue = ["10", "300"] ∧
    ((empty 2 2).after returningEpoch).queue = ["300", "7"] ∧
    ((empty 2 2).after returningEpoch).recent = [Engine.tiedEpoch 7, Engine.tiedEpoch 300] ∧
    Sound (empty 2 2) returningEpoch := by
  refine ⟨by decide +kernel, by decide +kernel, by decide +kernel, by decide +kernel, ?_⟩
  apply sound 2 2
  intro top total hwarm
  have hwarm : top = [Engine.tiedEpoch 300, Engine.tiedEpoch 7] ∧ total = 2 := by
    simpa [returningEpoch] using hwarm
  rw [hwarm.1]
  decide +kernel

end Cache

end ChainIndex
