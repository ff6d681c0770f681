import ChainIndex.Chain.Bytes

/-!
This module contains sets of transactions, kept as ascending lists, so that equal sets are equal values.
-/

namespace ChainIndex

@[ext]
structure TxSet where
  toList : List TxHash
  ascending : toList.Pairwise (· < ·)
deriving DecidableEq

namespace TxSet

def insertInto (h : TxHash) : List TxHash → List TxHash
  | [] => [h]
  | x :: rest =>
    if h < x then h :: x :: rest else if x < h then x :: insertInto h rest else x :: rest

theorem mem_insertInto {h y : TxHash} {l : List TxHash} : y ∈ insertInto h l ↔ y = h ∨ y ∈ l := by
  induction l with
  | nil => simp [insertInto]
  | cons x rest ih =>
    unfold insertInto
    split
    · exact List.mem_cons
    · next hlt =>
      split
      · rw [List.mem_cons, List.mem_cons, ih]
        exact or_left_comm
      · next hgt =>
        have hx : h = x := Std.le_antisymm (Std.not_lt.1 hgt) (Std.not_lt.1 hlt)
        rw [hx, List.mem_cons, ← or_assoc, or_self]

theorem ascending_insertInto (h : TxHash) {l : List TxHash} (hl : l.Pairwise (· < ·)) :
    (insertInto h l).Pairwise (· < ·) := by
  induction l with
  | nil => apply List.pairwise_singleton
  | cons x rest ih =>
    obtain ⟨hx, hrest⟩ := List.pairwise_cons.1 hl
    unfold insertInto
    split
    · next hlt =>
      apply List.pairwise_cons.2
      refine ⟨?_, hl⟩
      intro y hy
      cases List.mem_cons.1 hy with
      | inl hyx => rwa [hyx]
      | inr hy => exact Std.lt_trans hlt (hx y hy)
    · split
      · next hgt =>
        apply List.pairwise_cons.2
        refine ⟨?_, ih hrest⟩
        intro y hy
        cases mem_insertInto.1 hy with
        | inl hyh => rwa [hyh]
        | inr hy => exact hx y hy
      · exact hl

def empty : TxSet :=
  ⟨[], List.Pairwise.nil⟩

def insert (s : TxSet) (h : TxHash) : TxSet :=
  ⟨insertInto h s.toList, ascending_insertInto h s.ascending⟩

def ofList (hashes : List TxHash) : TxSet :=
  hashes.foldl insert empty

def union (s t : TxSet) : TxSet :=
  t.toList.foldl insert s

def size (s : TxSet) : Nat :=
  s.toList.length

def overlap (s t : TxSet) : Nat :=
  t.toList.countP fun h => s.toList.contains h

instance : Membership TxHash TxSet where
  mem s h := h ∈ s.toList

theorem nodup_toList (s : TxSet) : s.toList.Nodup :=
  s.ascending.imp Std.ne_of_lt

theorem eq_of_mem_iff {s t : TxSet} (h : ∀ y, y ∈ s ↔ y ∈ t) : s = t := by
  have perm : s.toList.Perm t.toList := (List.perm_ext_iff_of_nodup s.nodup_toList t.nodup_toList).2 h
  apply TxSet.ext
  apply List.Perm.eq_of_pairwise _ s.ascending t.ascending perm
  intro a b _ _ hab hba
  exact absurd hba (Std.not_gt_of_lt hab)

theorem ne_empty_iff {s : TxSet} : s ≠ empty ↔ ∃ y, y ∈ s := by
  constructor
  · intro hne
    apply List.exists_mem_of_ne_nil
    intro hnil
    exact hne (TxSet.ext hnil)
  · intro ⟨y, hy⟩ hempty
    rw [hempty] at hy
    exact List.not_mem_nil hy

@[simp]
theorem mem_insert {s : TxSet} {h y : TxHash} : y ∈ s.insert h ↔ y = h ∨ y ∈ s :=
  mem_insertInto

theorem mem_foldl_insert {hashes : List TxHash} {s : TxSet} {y : TxHash} :
    y ∈ hashes.foldl insert s ↔ y ∈ hashes ∨ y ∈ s := by
  induction hashes generalizing s with
  | nil => simp
  | cons h rest ih =>
    rw [List.foldl_cons, ih, mem_insert, List.mem_cons]
    rw [or_left_comm, or_assoc]

@[simp]
theorem mem_union {s t : TxSet} {y : TxHash} : y ∈ s.union t ↔ y ∈ t ∨ y ∈ s :=
  mem_foldl_insert

theorem overlap_eq (s t : TxSet) : s.overlap t = (t.toList.filter fun h => h ∈ s.toList).length := by
  unfold overlap
  simp [List.countP_eq_length_filter]

theorem overlap_eq_size_iff {s t : TxSet} : s.overlap t = t.size ↔ ∀ h ∈ t, h ∈ s := by
  unfold overlap size
  simp only [List.countP_eq_length, List.contains_iff_mem]
  rfl

theorem overlap_pos_iff {s t : TxSet} : 0 < s.overlap t ↔ ∃ h ∈ t, h ∈ s := by
  unfold overlap
  simp only [List.countP_pos_iff, List.contains_iff_mem]
  rfl

theorem insertInto_of_forall_lt {h : TxHash} {l : List TxHash} (hl : ∀ x ∈ l, x < h) :
    insertInto h l = l ++ [h] := by
  induction l with
  | nil => rfl
  | cons x rest ih =>
    have hx : x < h := hl x List.mem_cons_self
    have hrest : ∀ y ∈ rest, y < h := by
      intro y hy
      exact hl y (List.mem_cons_of_mem x hy)
    rw [insertInto, if_neg (Std.not_gt_of_lt hx)]
    rw [if_pos hx, ih hrest, List.cons_append]

theorem foldl_insert_of_ascending {l : List TxHash} {s : TxSet} (h : (s.toList ++ l).Pairwise (· < ·)) :
    (l.foldl insert s).toList = s.toList ++ l := by
  induction l generalizing s with
  | nil => simp
  | cons x rest ih =>
    have hlast : ∀ y ∈ s.toList, y < x := by
      intro y hy
      exact (List.pairwise_append.1 h).2.2 y hy x List.mem_cons_self
    have hinsert : (s.insert x).toList ++ rest = s.toList ++ x :: rest := by
      dsimp only [insert]
      rw [insertInto_of_forall_lt hlast, List.append_assoc, List.singleton_append]
    rw [← hinsert] at h ⊢
    rw [List.foldl_cons, ih h]

theorem ofList_toList (s : TxSet) : ofList s.toList = s := by
  apply TxSet.ext
  exact foldl_insert_of_ascending (s := empty) s.ascending

def ofJson (j : Json) : Except Misfit TxSet :=
  (j.readItems TxHash.ofJson).map ofList

def toJson (s : TxSet) : Json :=
  .array (s.toList.map TxHash.toJson)

@[simp]
theorem ofJson_toJson (s : TxSet) : ofJson s.toJson = .ok s := by
  unfold ofJson toJson
  rw [Json.readItems_map TxHash.ofJson_toJson]
  rw [Except.map, ofList_toList]

end TxSet

end ChainIndex
