import ChainIndex.Filter.Basic

/-!
This module contains when a filter is valid, and which of its field names it is refused for if it is not.
-/

namespace ChainIndex

namespace Condition

structure PlainName (field : String) : Prop where
  ne_empty : field ≠ ""
  plain : ∀ c ∈ field.toList, ('a' ≤ c ∧ c ≤ 'z') ∨ ('0' ≤ c ∧ c ≤ '9') ∨ c = '_'

theorem isPlainChar_iff {c : Char} :
    isPlainChar c = true ↔ ('a' ≤ c ∧ c ≤ 'z') ∨ ('0' ≤ c ∧ c ≤ '9') ∨ c = '_' := by
  have hlower : c.isLower = (decide ('a' ≤ c) && decide (c ≤ 'z')) := rfl
  have hdigit : c.isDigit = (decide ('0' ≤ c) && decide (c ≤ '9')) := rfl
  unfold isPlainChar
  rw [hlower, hdigit]
  simp [or_assoc]

theorem isPlain_iff {field : String} : isPlain field = true ↔ PlainName field := by
  unfold isPlain
  rw [Bool.and_eq_true, List.all_eq_true]
  simp only [isPlainChar_iff]
  constructor
  · rintro ⟨hne, hall⟩
    exact ⟨by simpa using hne, hall⟩
  · rintro ⟨hne, hall⟩
    exact ⟨by simpa using hne, hall⟩

end Condition

namespace Filter

variable {f : Filter}

open Condition (PlainName)

def FirstMisnamed (f : Filter) (c : Condition) : Prop :=
  ∃ before after, f.conditions = before ++ c :: after ∧ (∀ b ∈ before, PlainName b.field) ∧ ¬PlainName c.field

theorem find?_misnamed_eq_some_iff {c : Condition} :
    (f.conditions.find? fun c => !Condition.isPlain c.field) = some c ↔ f.FirstMisnamed c := by
  rw [List.find?_eq_some_iff_append]
  simp only [Bool.not_not, Condition.isPlain_iff, Bool.not_eq_true', Bool.eq_false_iff, ne_eq]
  constructor
  · rintro ⟨hmisnamed, before, after, hsplit, hbefore⟩
    exact ⟨before, after, hsplit, hbefore, hmisnamed⟩
  · rintro ⟨before, after, hsplit, hbefore, hmisnamed⟩
    exact ⟨hmisnamed, before, after, hsplit, hbefore⟩

theorem validate_eq_error_iff {fault : FilterFault} :
    f.validate = .error fault ↔ ∃ c, f.FirstMisnamed c ∧ fault = .badField c.field := by
  simp only [← find?_misnamed_eq_some_iff]
  unfold validate
  cases (f.conditions.find? fun c => !Condition.isPlain c.field) with
  | none => simp
  | some c => simp [eq_comm]

theorem validate_eq_ok_iff : f.validate = .ok () ↔ ∀ c ∈ f.conditions, PlainName c.field := by
  have hnone : (f.conditions.find? fun c => !Condition.isPlain c.field) = none ↔
      ∀ c ∈ f.conditions, PlainName c.field := by
    simp [List.find?_eq_none, Condition.isPlain_iff]
  rw [← hnone]
  unfold validate
  cases (f.conditions.find? fun c => !Condition.isPlain c.field) with
  | none => simp
  | some c => simp

end Filter

end ChainIndex
