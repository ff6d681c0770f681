/-!
This module contains the cutting of a text at a separator: once, at the first place where it stands, or
at every place.
-/

namespace ChainIndex

namespace Split

def first (sep : Char) : List Char → Option (List Char × List Char)
  | [] => none
  | c :: rest =>
    if c = sep then some ([], rest) else (first sep rest).map fun (a, b) => (c :: a, b)

def all (sep : Char) : List Char → List (List Char)
  | [] => [[]]
  | c :: rest =>
    if c = sep then [] :: all sep rest
    else match all sep rest with
      | [] => [[c]]
      | part :: parts => (c :: part) :: parts

theorem first_append {sep : Char} {a : List Char} (h : sep ∉ a) (b : List Char) :
    first sep (a ++ sep :: b) = some (a, b) := by
  induction a with
  | nil => rw [List.nil_append, first, if_pos rfl]
  | cons c rest ih =>
    rw [List.mem_cons, not_or] at h
    rw [List.cons_append, first]
    rw [if_neg (Ne.symm h.1)]
    rw [ih h.2, Option.map_some]

theorem eq_append_of_first {sep : Char} {cs a b : List Char} (h : first sep cs = some (a, b)) :
    cs = a ++ sep :: b ∧ sep ∉ a := by
  induction cs generalizing a b with
  | nil => contradiction
  | cons c rest ih =>
    unfold first at h
    split at h
    · next hc =>
      cases h
      rw [hc, List.nil_append]
      exact ⟨rfl, List.not_mem_nil⟩
    · next hc =>
      obtain ⟨⟨front, back⟩, hrest, heq⟩ := Option.map_eq_some_iff.1 h
      cases heq
      obtain ⟨hcat, hfront⟩ := ih hrest
      rw [hcat, List.cons_append, List.mem_cons, not_or]
      exact ⟨rfl, Ne.symm hc, hfront⟩

end Split

end ChainIndex
