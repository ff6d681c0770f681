/-!
This module contains finite maps kept as lists of entries in ascending order of their keys, so that maps
with equal entries are equal values and a walk along the list is a walk in order.
-/

namespace ChainIndex

@[ext]
structure OrderedMap (α β : Type) [LT α] where
  toList : List (α × β)
  ascending : toList.Pairwise fun x y => x.1 < y.1

namespace OrderedMap

variable {α β : Type} [LT α]

def insertInto [DecidableLT α] (a : α) (b : β) : List (α × β) → List (α × β)
  | [] => [(a, b)]
  | (a', b') :: rest =>
    if a < a' then (a, b) :: (a', b') :: rest
    else if a' < a then (a', b') :: insertInto a b rest
    else (a, b) :: rest

theorem mem_insertInto [DecidableLT α] {a : α} {b : β} {e : α × β} {l : List (α × β)}
    (h : e ∈ insertInto a b l) : e = (a, b) ∨ e ∈ l := by
  induction l with
  | nil =>
    left
    exact List.mem_singleton.1 h
  | cons x rest ih =>
    unfold insertInto at h
    split at h
    · exact List.mem_cons.1 h
    · split at h
      · cases List.mem_cons.1 h with
        | inl hx =>
          right
          rw [hx]
          exact List.mem_cons_self
        | inr h => exact (ih h).imp_right (List.mem_cons_of_mem x)
      · exact (List.mem_cons.1 h).imp_right (List.mem_cons_of_mem x)

section Ordered

variable [LE α] [Std.IsLinearOrder α] [Std.LawfulOrderLT α]

theorem ascending_insertInto [DecidableLT α] (a : α) (b : β) {l : List (α × β)}
    (hl : l.Pairwise fun x y => x.1 < y.1) : (insertInto a b l).Pairwise fun x y => x.1 < y.1 := by
  induction l with
  | nil => apply List.pairwise_singleton
  | cons x rest ih =>
    obtain ⟨hx, hrest⟩ := List.pairwise_cons.1 hl
    unfold insertInto
    split
    · next hlt =>
      apply List.pairwise_cons.2
      refine ⟨?_, hl⟩
      intro y hy
      cases List.mem_cons.1 hy with
      | inl hyx => rwa [hyx]
      | inr hy => exact Std.lt_trans hlt (hx y hy)
    · next hlt =>
      split
      · next hgt =>
        apply List.pairwise_cons.2
        refine ⟨?_, ih hrest⟩
        intro y hy
        cases mem_insertInto hy with
        | inl hyab => rwa [hyab]
        | inr hy => exact hx y hy
      · next hgt =>
        have ha : a = x.1 := Std.le_antisymm (Std.not_lt.1 hgt) (Std.not_lt.1 hlt)
        apply List.pairwise_cons.2
        rw [ha]
        exact ⟨hx, hrest⟩

end Ordered

def empty : OrderedMap α β :=
  ⟨[], List.Pairwise.nil⟩

def insert [LE α] [Std.IsLinearOrder α] [Std.LawfulOrderLT α] [DecidableLT α] (m : OrderedMap α β) (a : α)
    (b : β) : OrderedMap α β :=
  ⟨insertInto a b m.toList, ascending_insertInto a b m.ascending⟩

def erase [DecidableEq α] (m : OrderedMap α β) (a : α) : OrderedMap α β :=
  ⟨m.toList.filter fun e => e.1 ≠ a, m.ascending.filter _⟩

def get? [DecidableEq α] (m : OrderedMap α β) (a : α) : Option β :=
  m.toList.lookup a

def size (m : OrderedMap α β) : Nat :=
  m.toList.length

theorem lookup_filter_ne_self {α β : Type} [DecidableEq α] (a : α) (l : List (α × β)) :
    (l.filter fun e => e.1 ≠ a).lookup a = none := by
  apply List.lookup_eq_none_iff.2
  intro e he
  have hne : e.1 ≠ a := of_decide_eq_true (List.mem_filter.1 he).2
  exact bne_iff_ne.2 hne.symm

theorem lookup_filter_ne_of_ne {α β : Type} [DecidableEq α] {a k : α} (h : k ≠ a)
    (l : List (α × β)) : (l.filter fun e => e.1 ≠ a).lookup k = l.lookup k := by
  induction l with
  | nil => rfl
  | cons x rest ih =>
    by_cases hx : x.1 = a
    · have hkx : (k == x.1) = false := by
        rw [hx]
        exact beq_eq_false_iff_ne.2 h
      rw [List.filter_cons_of_neg (by simp [hx])]
      rw [ih, List.lookup_cons, hkx]
    · rw [List.filter_cons_of_pos (by simp [hx])]
      rw [List.lookup_cons, List.lookup_cons, ih]

@[simp]
theorem get?_empty [DecidableEq α] (a : α) : (empty : OrderedMap α β).get? a = none := rfl

@[simp]
theorem get?_erase_self [DecidableEq α] (m : OrderedMap α β) (a : α) : (m.erase a).get? a = none :=
  lookup_filter_ne_self a m.toList

theorem get?_erase_of_ne [DecidableEq α] (m : OrderedMap α β) {a k : α} (h : k ≠ a) :
    (m.erase a).get? k = m.get? k :=
  lookup_filter_ne_of_ne h m.toList

section Ordered

variable [LE α] [Std.LawfulOrderLT α]

theorem lookup_insertInto_self [DecidableLT α] [DecidableEq α] (a : α) (b : β) (l : List (α × β)) :
    (insertInto a b l).lookup a = some b := by
  induction l with
  | nil => simp [insertInto]
  | cons x rest ih =>
    unfold insertInto
    split
    · simp
    · split
      · next hgt =>
        have hax : (a == x.1) = false := beq_eq_false_iff_ne.2 (Std.ne_of_lt hgt).symm
        rw [List.lookup_cons, hax, ih]
      · simp

theorem mem_iff_lookup [DecidableEq α] {l : List (α × β)} (hl : l.Pairwise fun x y => x.1 < y.1) {a : α}
    {b : β} : (a, b) ∈ l ↔ l.lookup a = some b := by
  induction l with
  | nil => simp
  | cons x rest ih =>
    obtain ⟨hx, hrest⟩ := List.pairwise_cons.1 hl
    rw [List.mem_cons, List.lookup_cons]
    by_cases ha : a = x.1
    · have hmem : (a, b) ∉ rest := by
        intro hmem
        exact Std.ne_of_lt (hx _ hmem) ha.symm
      rw [beq_iff_eq.2 ha, or_iff_left hmem, Option.some.injEq, Prod.ext_iff]
      constructor
      · intro heq
        exact heq.2.symm
      · intro heq
        exact ⟨ha, heq.symm⟩
    · rw [beq_eq_false_iff_ne.2 ha, ← ih hrest]
      apply or_iff_right
      intro heq
      exact ha (congrArg Prod.fst heq)

theorem mem_toList_iff [DecidableEq α] {m : OrderedMap α β} {a : α} {b : β} :
    (a, b) ∈ m.toList ↔ m.get? a = some b :=
  mem_iff_lookup m.ascending

theorem nodup_toList (m : OrderedMap α β) : m.toList.Nodup := by
  apply m.ascending.imp
  intro x y hlt heq
  exact Std.ne_of_lt hlt (congrArg Prod.fst heq)

theorem eq_of_get? [DecidableEq α] {m n : OrderedMap α β} (h : ∀ a, m.get? a = n.get? a) : m = n := by
  have perm : m.toList.Perm n.toList := by
    apply (List.perm_ext_iff_of_nodup m.nodup_toList n.nodup_toList).2
    rintro ⟨a, b⟩
    rw [mem_toList_iff, mem_toList_iff, h]
  apply OrderedMap.ext
  apply List.Perm.eq_of_pairwise _ m.ascending n.ascending perm
  intro x y _ _ hxy hyx
  exact absurd hyx (Std.not_gt_of_lt hxy)

variable [Std.IsLinearOrder α]

theorem lookup_insertInto_of_ne [DecidableLT α] [DecidableEq α] {a k : α} (h : k ≠ a) (b : β)
    (l : List (α × β)) : (insertInto a b l).lookup k = l.lookup k := by
  have hk : (k == a) = false := beq_eq_false_iff_ne.2 h
  induction l with
  | nil => simp [insertInto, List.lookup_cons, hk]
  | cons x rest ih =>
    unfold insertInto
    split
    · rw [List.lookup_cons, hk]
    · next hlt =>
      split
      · rw [List.lookup_cons, List.lookup_cons, ih]
      · next hgt =>
        have ha : a = x.1 := Std.le_antisymm (Std.not_lt.1 hgt) (Std.not_lt.1 hlt)
        rw [ha] at hk
        rw [List.lookup_cons, List.lookup_cons, ha, hk]

@[simp]
theorem get?_insert_self [DecidableLT α] [DecidableEq α] (m : OrderedMap α β) (a : α) (b : β) :
    (m.insert a b).get? a = some b :=
  lookup_insertInto_self a b m.toList

theorem get?_insert_of_ne [DecidableLT α] [DecidableEq α] (m : OrderedMap α β) {a k : α} (h : k ≠ a)
    (b : β) : (m.insert a b).get? k = m.get? k :=
  lookup_insertInto_of_ne h b m.toList

end Ordered

end OrderedMap

end ChainIndex
