import ChainIndex.Proofs.Outcomes
import ChainIndex.Record.Entry

/-!
This module contains the proof that the fields of an object may stand in any order: a record that is read
from an object is read from every rearrangement of it.
-/

namespace ChainIndex

namespace Fields

variable {α : Type} {checks : List (String × (Json → Except Misfit Unit))} {values values' : List (String × Json)}

theorem lookup_eq_some_iff_mem {name : String} {value : Json} (hn : (values.map Prod.fst).Nodup) :
    values.lookup name = some value ↔ (name, value) ∈ values := by
  induction values with
  | nil => simp
  | cons p rest ih =>
    obtain ⟨hfresh, hrest⟩ := List.nodup_cons.1 hn
    obtain ⟨name', value'⟩ := p
    by_cases hname : name = name'
    · subst hname
      have hnot : (name, value) ∉ rest := fun hmem => hfresh (List.mem_map.2 ⟨_, hmem, rfl⟩)
      simp [hnot, eq_comm]
    · have hbeq : (name == name') = false := beq_false_of_ne hname
      simp [List.lookup_cons, hbeq, hname, ih hrest]

theorem lookup_perm (h : values.Perm values') (hn : (values.map Prod.fst).Nodup) (name : String) :
    values.lookup name = values'.lookup name := by
  have hn' := (h.map Prod.fst).nodup_iff.1 hn
  apply Option.ext
  intro value
  rw [lookup_eq_some_iff_mem hn, lookup_eq_some_iff_mem hn', h.mem_iff]

theorem visit_eq_ok_iff (hn : (values.map Prod.fst).Nodup) : ∀ seen,
    visit checks seen values = .ok () ↔
      ∀ p ∈ values, ∀ check, checks.lookup p.1 = some check → p.1 ∉ seen ∧ check p.2 = .ok () := by
  induction values with
  | nil =>
    intro seen
    simp [visit]
  | cons p rest ih =>
    intro seen
    obtain ⟨hfresh, hrest⟩ := List.nodup_cons.1 hn
    obtain ⟨name, value⟩ := p
    rw [List.forall_mem_cons]
    unfold visit
    cases hcheck : checks.lookup name with
    | none => simp [ih hrest]
    | some check =>
      by_cases hseen : name ∈ seen
      · simp [hseen]
      · have hcons : ∀ p ∈ rest, p.1 ∉ name :: seen ↔ p.1 ∉ seen := by
          intro p hp
          have hne : p.1 ≠ name := fun h => hfresh (List.mem_map.2 ⟨p, hp, h⟩)
          rw [List.mem_cons, or_iff_right hne]
        have htail : visit checks (name :: seen) rest = .ok () ↔
            ∀ p ∈ rest, ∀ check, checks.lookup p.1 = some check → p.1 ∉ seen ∧ check p.2 = .ok () := by
          rw [ih hrest]
          apply forall₂_congr
          intro p hp
          rw [hcons p hp]
        rw [← htail]
        dsimp only
        rw [if_neg (by simpa using hseen)]
        constructor
        · intro h
          obtain ⟨_, hvalue, hvisit⟩ := bind_eq_ok_iff.1 h
          refine ⟨?_, hvisit⟩
          intro _ hsome
          cases hsome
          exact ⟨hseen, hvalue⟩
        · rintro ⟨hhead, hvisit⟩
          apply bind_eq_ok_iff.2
          exact ⟨(), (hhead check rfl).2, hvisit⟩

theorem readObject_perm {fields : Fields α} {a : α} (h : fields.readObject values = .ok a)
    (hperm : values.Perm values') (hn : (values.map Prod.fst).Nodup) : fields.readObject values' = .ok a := by
  obtain ⟨_, hvisit, hbuild⟩ := bind_eq_ok_iff.1 h
  have hn' := (hperm.map Prod.fst).nodup_iff.1 hn
  have hlook : (fun name => values.lookup name) = fun name => values'.lookup name :=
    funext (lookup_perm hperm hn)
  apply bind_eq_ok_iff.2
  refine ⟨(), ?_, ?_⟩
  · rw [visit_eq_ok_iff hn']
    rw [visit_eq_ok_iff hn] at hvisit
    intro p hp
    exact hvisit p (hperm.mem_iff.2 hp)
  · rw [← hlook]
    exact hbuild

end Fields

theorem ofJson_perm {kind : RecordKind} {r : kind.Entry} {values values' : List (String × Json)}
    (h : Record.ofJson (.object values) = .ok r) (hperm : values.Perm values') (hn : (values.map Prod.fst).Nodup) :
    Record.ofJson (.object values') = .ok r := by
  cases kind with
  | swap =>
    obtain ⟨build, hbuild, h⟩ := bind_eq_ok_iff.1 h
    obtain ⟨amounts, hamounts, h⟩ := bind_eq_ok_iff.1 h
    obtain ⟨reserves, hreserves, h⟩ := bind_eq_ok_iff.1 h
    obtain ⟨decimals, hdecimals, h⟩ := bind_eq_ok_iff.1 h
    apply bind_eq_ok_iff.2
    refine ⟨build, Fields.readObject_perm hbuild hperm hn, ?_⟩
    apply bind_eq_ok_iff.2
    refine ⟨amounts, Fields.readObject_perm hamounts hperm hn, ?_⟩
    apply bind_eq_ok_iff.2
    refine ⟨reserves, Fields.readObject_perm hreserves hperm hn, ?_⟩
    apply bind_eq_ok_iff.2
    exact ⟨decimals, Fields.readObject_perm hdecimals hperm hn, h⟩
  | _ => exact Fields.readObject_perm h hperm hn

end ChainIndex
