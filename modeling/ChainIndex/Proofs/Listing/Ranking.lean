import ChainIndex.Listing.Cache

/-!
This module contains the lists that a listing runs through from its top downward, what becomes of such a
list when one record is written, and how much of its top still agrees with a list that it agreed with
before the write.
-/

namespace ChainIndex

variable {ρ κ : Type} [RecordKey κ] [Record ρ κ]

open Cache (keyText place)

structure Ranked (l : List ρ) : Prop where
  descending : l.Pairwise fun x y => SortKey.ofRecord y < SortKey.ofRecord x
  distinct : l.Pairwise fun x y => keyText x ≠ keyText y

def settle (r : ρ) (l : List ρ) : List ρ :=
  place r (l.filter fun x => keyText x ≠ keyText r)

def Sinks (r : ρ) (l : List ρ) : Prop :=
  ∃ x ∈ l, keyText x = keyText r ∧ SortKey.ofRecord r < SortKey.ofRecord x

theorem ofRecord_eq_iff {x y : ρ} :
    SortKey.ofRecord x = SortKey.ofRecord y ↔ Record.ordinal x = Record.ordinal y ∧ keyText x = keyText y := by
  unfold SortKey.ofRecord keyText
  simp

theorem ofRecord_lt_iff {x y : ρ} (h : keyText x = keyText y) :
    SortKey.ofRecord x < SortKey.ofRecord y ↔ Record.ordinal x < Record.ordinal y := by
  rw [SortKey.lt_iff]
  constructor
  · rintro (hlt | ⟨_, hlt⟩)
    · exact hlt
    · have hkey : keyText x < keyText y := hlt
      rw [h] at hkey
      exact absurd hkey (Std.lt_irrefl)
  · exact Or.inl

theorem lt_or_lt_of_keyText_ne {x y : ρ} (h : keyText x ≠ keyText y) :
    SortKey.ofRecord x < SortKey.ofRecord y ∨ SortKey.ofRecord y < SortKey.ofRecord x := by
  apply Decidable.byContradiction
  intro hn
  rw [not_or] at hn
  have := Std.le_antisymm (Std.not_lt.1 hn.2) (Std.not_lt.1 hn.1)
  exact h (ofRecord_eq_iff.1 this).2

namespace Ranked

theorem nil : Ranked ([] : List ρ) :=
  ⟨List.Pairwise.nil, List.Pairwise.nil⟩

theorem sublist {l m : List ρ} (hm : Ranked m) (h : l.Sublist m) : Ranked l :=
  ⟨hm.descending.sublist h, hm.distinct.sublist h⟩

theorem filter {l : List ρ} (h : Ranked l) (p : ρ → Bool) : Ranked (l.filter p) :=
  h.sublist List.filter_sublist

theorem take {l : List ρ} (h : Ranked l) (n : Nat) : Ranked (l.take n) :=
  h.sublist (List.take_sublist n l)

theorem tail {x : ρ} {l : List ρ} (h : Ranked (x :: l)) : Ranked l :=
  h.sublist (List.sublist_cons_self x l)

theorem lt_head {x y : ρ} {l : List ρ} (h : Ranked (x :: l)) (hy : y ∈ l) :
    SortKey.ofRecord y < SortKey.ofRecord x :=
  List.rel_of_pairwise_cons h.descending hy

theorem head_ne {x y : ρ} {l : List ρ} (h : Ranked (x :: l)) (hy : y ∈ l) : keyText x ≠ keyText y :=
  List.rel_of_pairwise_cons h.distinct hy

theorem nodup {l : List ρ} (h : Ranked l) : l.Nodup := by
  apply h.distinct.imp
  intro x y hne heq
  rw [heq] at hne
  exact hne rfl

theorem eq_of_mem_iff {l m : List ρ} (hl : Ranked l) (hm : Ranked m) (h : ∀ x, x ∈ l ↔ x ∈ m) : l = m := by
  have perm : l.Perm m := (List.perm_ext_iff_of_nodup hl.nodup hm.nodup).2 h
  apply List.Perm.eq_of_pairwise _ hl.descending hm.descending perm
  intro x y _ _ hyx hxy
  exact absurd hxy (Std.not_gt_of_lt hyx)

end Ranked

theorem place_cons_of_lt {r x : ρ} (h : SortKey.ofRecord r < SortKey.ofRecord x) (l : List ρ) :
    place r (x :: l) = x :: place r l := by
  rw [place, if_pos h]

theorem place_cons_of_not_lt {r x : ρ} (h : ¬SortKey.ofRecord r < SortKey.ofRecord x) (l : List ρ) :
    place r (x :: l) = r :: x :: l := by
  rw [place, if_neg h]

theorem mem_place {r y : ρ} {l : List ρ} : y ∈ place r l ↔ y = r ∨ y ∈ l := by
  induction l with
  | nil => simp [place]
  | cons x l ih =>
    unfold place
    split
    · rw [List.mem_cons, ih, List.mem_cons]
      apply or_left_comm
    · apply List.mem_cons

@[simp]
theorem length_place (r : ρ) (l : List ρ) : (place r l).length = l.length + 1 := by
  induction l with
  | nil => rfl
  | cons x l ih =>
    unfold place
    split
    · simp [ih]
    · rfl

theorem place_append_of_forall_lt {r : ρ} {l : List ρ} (h : ∀ x ∈ l, SortKey.ofRecord r < SortKey.ofRecord x)
    (m : List ρ) : place r (l ++ m) = l ++ place r m := by
  induction l with
  | nil => rfl
  | cons x l ih =>
    rw [List.cons_append, List.cons_append]
    rw [place_cons_of_lt (h x List.mem_cons_self)]
    rw [ih fun y hy => h y (List.mem_cons_of_mem x hy)]

theorem place_append_of_not_lt {r x : ρ} {l : List ρ} (hx : x ∈ l)
    (h : ¬SortKey.ofRecord r < SortKey.ofRecord x) (m : List ρ) : place r (l ++ m) = place r l ++ m := by
  induction l with
  | nil => simp at hx
  | cons y l ih =>
    rw [List.cons_append]
    by_cases hy : SortKey.ofRecord r < SortKey.ofRecord y
    · rw [place_cons_of_lt hy, place_cons_of_lt hy]
      cases List.mem_cons.1 hx with
      | inl hxy =>
        rw [hxy] at h
        exact absurd hy h
      | inr hx => rw [ih hx, List.cons_append]
    · rw [place_cons_of_not_lt hy, place_cons_of_not_lt hy]
      rfl

theorem place_of_forall_not_lt {r : ρ} {l : List ρ}
    (h : ∀ x ∈ l, ¬SortKey.ofRecord r < SortKey.ofRecord x) : place r l = r :: l := by
  cases l with
  | nil => rfl
  | cons x l => rw [place_cons_of_not_lt (h x List.mem_cons_self)]

theorem take_place_append {r : ρ} {p x y : List ρ} {e : Nat}
    (h : e ≤ p.length ∨ e = p.length + 1 ∧ ∀ z ∈ x ++ y, ¬SortKey.ofRecord r < SortKey.ofRecord z) :
    (place r (p ++ y)).take e = (place r (p ++ x)).take e := by
  by_cases hex : ∃ z ∈ p, ¬SortKey.ofRecord r < SortKey.ofRecord z
  -- The record finds its place within the common part, which pushes one record out of it.
  · obtain ⟨z, hz, hrz⟩ := hex
    rw [place_append_of_not_lt hz hrz, place_append_of_not_lt hz hrz]
    have hlen : e ≤ (place r p).length := by
      rw [length_place]
      omega
    rw [List.take_append_of_le_length hlen, List.take_append_of_le_length hlen]
  · have hall : ∀ z ∈ p, SortKey.ofRecord r < SortKey.ofRecord z :=
      fun z hz => Decidable.byContradiction fun hrz => hex ⟨z, hz, hrz⟩
    rw [place_append_of_forall_lt hall, place_append_of_forall_lt hall]
    cases h with
    | inl h => rw [List.take_append_of_le_length h, List.take_append_of_le_length h]
    | inr h =>
      rw [place_of_forall_not_lt fun z hz => h.2 z (List.mem_append_right x hz)]
      rw [place_of_forall_not_lt fun z hz => h.2 z (List.mem_append_left y hz)]
      simp [h.1, List.take_append]

theorem place_sublist {r : ρ} {l m : List ρ} (hm : Ranked m) (h : l.Sublist m) :
    (place r l).Sublist (place r m) := by
  induction h with
  | slnil => apply List.Sublist.refl
  | @cons l m x h ih =>
    by_cases hx : SortKey.ofRecord r < SortKey.ofRecord x
    · rw [place_cons_of_lt hx]
      apply List.Sublist.cons
      exact ih hm.tail
    · rw [place_cons_of_not_lt hx, place_of_forall_not_lt]
      · apply List.Sublist.cons_cons
        apply List.Sublist.cons
        exact h
      · intro y hy hlt
        exact hx (Std.lt_trans hlt (hm.lt_head (h.subset hy)))
  | @cons_cons l m x h ih =>
    by_cases hx : SortKey.ofRecord r < SortKey.ofRecord x
    · rw [place_cons_of_lt hx, place_cons_of_lt hx]
      apply List.Sublist.cons_cons
      exact ih hm.tail
    · rw [place_cons_of_not_lt hx, place_cons_of_not_lt hx]
      apply List.Sublist.cons_cons
      apply List.Sublist.cons_cons
      exact h

theorem mem_settle {r y : ρ} {l : List ρ} :
    y ∈ settle r l ↔ y = r ∨ y ∈ l ∧ keyText y ≠ keyText r := by
  unfold settle
  rw [mem_place, List.mem_filter]
  simp

theorem settle_sublist {r : ρ} {l m : List ρ} (hm : Ranked m) (h : l.Sublist m) :
    (settle r l).Sublist (settle r m) := by
  apply place_sublist
  · apply hm.filter
  · apply h.filter

theorem filter_ne_of_forall {r : ρ} {l : List ρ} (h : ∀ x ∈ l, keyText x ≠ keyText r) :
    (l.filter fun x => keyText x ≠ keyText r) = l := by
  apply List.filter_eq_self.2
  intro x hx
  simpa using h x hx

namespace Ranked

theorem filter_ne_of_mem {r x : ρ} {l : List ρ} (h : Ranked l) (hx : x ∈ l) (hxr : keyText x = keyText r) :
    (l.filter fun y => keyText y ≠ keyText r).length + 1 = l.length := by
  induction l with
  | nil => simp at hx
  | cons y l ih =>
    by_cases hy : keyText y = keyText r
    · rw [List.filter_cons_of_neg (by simpa using hy)]
      rw [filter_ne_of_forall]
      · rfl
      · intro z hz
        rw [← hy]
        exact (h.head_ne hz).symm
    · rw [List.filter_cons_of_pos (by simpa using hy)]
      rw [List.length_cons, ih h.tail]
      · rfl
      · cases List.mem_cons.1 hx with
        | inl hxy =>
          rw [← hxy] at hy
          exact absurd hxr hy
        | inr hx => exact hx

theorem cons {x : ρ} {l : List ρ} (h : Ranked l) (hlt : ∀ y ∈ l, SortKey.ofRecord y < SortKey.ofRecord x)
    (hne : ∀ y ∈ l, keyText x ≠ keyText y) : Ranked (x :: l) :=
  ⟨List.pairwise_cons.2 ⟨hlt, h.descending⟩, List.pairwise_cons.2 ⟨hne, h.distinct⟩⟩

theorem place {r : ρ} {l : List ρ} (h : Ranked l) (hr : ∀ x ∈ l, keyText x ≠ keyText r) :
    Ranked (Cache.place r l) := by
  induction l with
  | nil => exact ⟨List.pairwise_singleton _ _, List.pairwise_singleton _ _⟩
  | cons x l ih =>
    have hxr := hr x List.mem_cons_self
    have hlr : ∀ y ∈ l, keyText y ≠ keyText r := fun y hy => hr y (List.mem_cons_of_mem x hy)
    by_cases hx : SortKey.ofRecord r < SortKey.ofRecord x
    · rw [place_cons_of_lt hx]
      apply (ih h.tail hlr).cons
      · intro y hy
        cases mem_place.1 hy with
        | inl hyr => rwa [hyr]
        | inr hy => exact h.lt_head hy
      · intro y hy
        cases mem_place.1 hy with
        | inl hyr => rwa [hyr]
        | inr hy => exact h.head_ne hy
    · have hxlt : SortKey.ofRecord x < SortKey.ofRecord r :=
        (lt_or_lt_of_keyText_ne hxr).resolve_right hx
      rw [place_cons_of_not_lt hx]
      apply h.cons
      · intro y hy
        cases List.mem_cons.1 hy with
        | inl hyx => rwa [hyx]
        | inr hy => exact Std.lt_trans (h.lt_head hy) hxlt
      · intro y hy
        exact (hr y hy).symm

theorem settle {r : ρ} {l : List ρ} (h : Ranked l) : Ranked (settle r l) := by
  apply (h.filter _).place
  intro x hx
  simpa using (List.mem_filter.1 hx).2

theorem length_settle_of_mem {r x : ρ} {l : List ρ} (h : Ranked l) (hx : x ∈ l)
    (hxr : keyText x = keyText r) : (ChainIndex.settle r l).length = l.length := by
  unfold ChainIndex.settle
  rw [length_place, h.filter_ne_of_mem hx hxr]

theorem take_settle {r : ρ} {l m : List ρ} {d e : Nat} (hl : Ranked l) (hm : Ranked m)
    (h : l.take d = m.take d) (he : e + 1 ≤ d ∨ e = d ∧ ¬Sinks r m) :
    (ChainIndex.settle r l).take e = (ChainIndex.settle r m).take e := by
  -- Lists that are shorter than what they agree on are equal.
  by_cases hlen : m.length < d
  · have hmd : m.take d = m := List.take_of_length_le (by omega)
    have hld : l.length < d := by
      have := congrArg List.length h
      rw [hmd, List.length_take] at this
      omega
    rw [hmd, List.take_of_length_le (by omega)] at h
    rw [h]
  · have hp : (m.take d).length = d := by
      rw [List.length_take]
      omega
    have hpx : m.take d ++ m.drop d = m := List.take_append_drop d m
    have hpy : m.take d ++ l.drop d = l := by
      rw [← h]
      apply List.take_append_drop
    generalize m.take d = p, m.drop d = x, l.drop d = y at hp hpx hpy
    subst hpx hpy
    unfold ChainIndex.settle
    rw [List.filter_append, List.filter_append]
    apply take_place_append
    -- Writing over a record of the common part leaves one record less of it.
    by_cases hex : ∃ z ∈ p, keyText z = keyText r
    · obtain ⟨z, hz, hzr⟩ := hex
      have hlen := (hm.sublist (List.sublist_append_left p x)).filter_ne_of_mem hz hzr
      cases he with
      | inl he =>
        left
        omega
      | inr he =>
        right
        constructor
        · omega
        · intro w hw hrw
          -- A record below the one that is written over cannot stand above the new one.
          have hwz : SortKey.ofRecord w < SortKey.ofRecord z := by
            cases List.mem_append.1 hw with
            | inl hw => exact (List.pairwise_append.1 hm.descending).2.2 z hz w (List.mem_filter.1 hw).1
            | inr hw => exact (List.pairwise_append.1 hl.descending).2.2 z hz w (List.mem_filter.1 hw).1
          apply he.2
          exact ⟨z, List.mem_append_left x hz, hzr, Std.lt_trans hrw hwz⟩
    · left
      rw [filter_ne_of_forall fun z hz hzr => hex ⟨z, hz, hzr⟩]
      omega

end Ranked

theorem length_settle_of_forall {r : ρ} {l : List ρ} (h : ∀ x ∈ l, keyText x ≠ keyText r) :
    (settle r l).length = l.length + 1 := by
  unfold settle
  rw [length_place, filter_ne_of_forall h]

end ChainIndex
