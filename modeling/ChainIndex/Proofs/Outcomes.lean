/-!
This module contains when a computation that can fail succeeds, which is when each of its steps does, and what it can
fail with.
-/

namespace ChainIndex

theorem bind_eq_ok_iff {α β ε : Type} {x : Except ε α} {g : α → Except ε β} {b : β} :
    x.bind g = .ok b ↔ ∃ a, x = .ok a ∧ g a = .ok b := by
  cases x with
  | error e => simp [Except.bind]
  | ok a => simp [Except.bind]

theorem bind_eq_error_iff {α β ε : Type} {x : Except ε α} {g : α → Except ε β} {e : ε} :
    x.bind g = .error e ↔ x = .error e ∨ ∃ a, x = .ok a ∧ g a = .error e := by
  cases x with
  | error e => simp [Except.bind]
  | ok a => simp [Except.bind]

theorem map_eq_ok_iff {α β ε : Type} {x : Except ε α} {g : α → β} {b : β} :
    x.map g = .ok b ↔ ∃ a, x = .ok a ∧ g a = b := by
  cases x with
  | error e => simp [Except.map]
  | ok a => simp [Except.map]

theorem map_eq_ok_iff_of_inverse {α β ε : Type} {x : Except ε α} {g : α → β} {back : β → α}
    (hback : ∀ a, back (g a) = a) (hg : ∀ b, g (back b) = b) {b : β} : x.map g = .ok b ↔ x = .ok (back b) := by
  rw [map_eq_ok_iff]
  constructor
  · rintro ⟨a, ha, rfl⟩
    rw [ha, hback]
  · intro h
    exact ⟨_, h, hg b⟩

theorem mapError_eq_ok_iff {α ε ε' : Type} {x : Except ε α} {g : ε → ε'} {a : α} :
    x.mapError g = .ok a ↔ x = .ok a := by
  cases x with
  | error e =>
    constructor
    · intro h
      cases h
    · intro h
      cases h
  | ok a =>
    constructor
    · intro h
      cases h
      rfl
    · intro h
      cases h
      rfl

theorem mapError_ne_error {α ε ε' : Type} {x : Except ε α} {g : ε → ε'} {e : ε'} (h : ∀ fault, g fault ≠ e) :
    x.mapError g ≠ .error e := by
  cases x with
  | error fault =>
    intro heq
    exact h fault (Except.error.inj heq)
  | ok a => nofun

theorem elim_eq_ok_iff {α ε : Type} {x : Option α} {e : ε} {a : α} :
    (x.elim (.error e) .ok : Except ε α) = .ok a ↔ x = some a := by
  cases x with
  | none => simp
  | some b => simp

theorem toOption_eq_some_iff {α ε : Type} {x : Except ε α} {a : α} : x.toOption = some a ↔ x = .ok a := by
  cases x with
  | error e => simp [Except.toOption]
  | ok b => simp [Except.toOption]

end ChainIndex
