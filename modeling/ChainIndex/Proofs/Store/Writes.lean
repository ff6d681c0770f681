import ChainIndex.Proofs.Store.Consistency

/-!
This module contains all that a write can do to a store in memory, and the stores that writes lead to from
the empty one.
-/

namespace ChainIndex

namespace MemoryStore

variable {ρ κ : Type} [RecordKey κ] [Record ρ κ]

open Cache (keyText)

@[simp]
theorem keyText_keepOrdinal (previous : Option ρ) (r : ρ) : keyText (keepOrdinal previous r) = keyText r := by
  unfold keyText keepOrdinal
  cases previous with
  | none => rfl
  | some stored => simp only [Record.key_setOrdinal]

omit [RecordKey κ] in
@[simp]
theorem ordinal_keepOrdinal (stored r : ρ) :
    Record.ordinal (keepOrdinal (some stored) r) = Record.ordinal stored := by
  apply Record.ordinal_setOrdinal

theorem foreignKey?_eq_none_iff {key : String} {w : Write ρ} :
    w.foreignKey? key = none ↔ ∀ r, w.written? = some r → keyText r = key := by
  unfold Write.foreignKey? keyText
  cases w.written? <;> simp

theorem foreignKey?_of_ne {key : κ} {w : Write ρ} {x : ρ} (hx : w.written? = some x) (hkey : Record.key x ≠ key) :
    w.foreignKey? (RecordKey.encode key) = some (RecordKey.encode (Record.key x)) := by
  have hne : RecordKey.encode (Record.key x) ≠ RecordKey.encode key := by
    intro heq
    exact hkey (RecordKey.encode_inj heq)
  unfold Write.foreignKey?
  rw [hx, Option.map_some, Option.filter_some, if_pos (decide_eq_true hne)]

section merge

variable {s : MemoryStore ρ} {key : κ} {plan : Planner ρ}

theorem merge_of_error {e : IndexError} (h : plan (s.find? (RecordKey.encode key)) = .error e) :
    s.merge key plan = (.error e, s) := by
  unfold merge
  dsimp only
  rw [h]

theorem merge_of_foreign {w : Write ρ} {other : String} (h : plan (s.find? (RecordKey.encode key)) = .ok w)
    (hforeign : w.foreignKey? (RecordKey.encode key) = some other) :
    s.merge key plan =
      (.error (.internal s!"merge for `{RecordKey.encode key}` tried to write `{other}`"), s) := by
  unfold merge
  dsimp only
  rw [h]
  dsimp only
  rw [hforeign]

theorem merge_of_skip (h : plan (s.find? (RecordKey.encode key)) = .ok .skip) :
    s.merge key plan = (.ok ⟨s.find? (RecordKey.encode key), .skip⟩, s) := by
  unfold merge
  dsimp only
  rw [h]
  rfl

theorem merge_of_put {r : ρ} (h : plan (s.find? (RecordKey.encode key)) = .ok (.put r))
    (hkey : keyText r = RecordKey.encode key) :
    s.merge key plan =
      (.ok ⟨s.find? (keyText r), .put (keepOrdinal (s.find? (keyText r)) r)⟩,
        s.overwrite (keepOrdinal (s.find? (keyText r)) r)) := by
  have hown : (Write.put r).foreignKey? (RecordKey.encode key) = none :=
    foreignKey?_eq_none_iff.2 fun _ hr => Option.some.inj hr ▸ hkey
  unfold merge overwrite apply
  dsimp only
  rw [h]
  dsimp only
  rw [hown, keyText_keepOrdinal, hkey]

theorem merge_of_replace {r : ρ} (h : plan (s.find? (RecordKey.encode key)) = .ok (.replace r))
    (hkey : keyText r = RecordKey.encode key) :
    s.merge key plan = (.ok ⟨s.find? (keyText r), .replace r⟩, s.overwrite r) := by
  have hown : (Write.replace r).foreignKey? (RecordKey.encode key) = none :=
    foreignKey?_eq_none_iff.2 fun _ hr => Option.some.inj hr ▸ hkey
  unfold merge overwrite apply
  dsimp only
  rw [h]
  dsimp only
  rw [hown, hkey]

end merge

theorem merge_cases (s : MemoryStore ρ) (key : κ) (plan : Planner ρ) :
    (∃ e, s.merge key plan = (.error e, s)) ∨
    (plan (s.find? (RecordKey.encode key)) = .ok .skip ∧
      s.merge key plan = (.ok ⟨s.find? (RecordKey.encode key), .skip⟩, s)) ∨
    (∃ r, plan (s.find? (RecordKey.encode key)) = .ok (.put r) ∧ keyText r = RecordKey.encode key ∧
      s.merge key plan =
        (.ok ⟨s.find? (keyText r), .put (keepOrdinal (s.find? (keyText r)) r)⟩,
          s.overwrite (keepOrdinal (s.find? (keyText r)) r))) ∨
    (∃ r, plan (s.find? (RecordKey.encode key)) = .ok (.replace r) ∧ keyText r = RecordKey.encode key ∧
      s.merge key plan = (.ok ⟨s.find? (keyText r), .replace r⟩, s.overwrite r)) := by
  cases hplan : plan (s.find? (RecordKey.encode key)) with
  | error e =>
    left
    exact ⟨e, merge_of_error hplan⟩
  | ok w =>
    cases hforeign : w.foreignKey? (RecordKey.encode key) with
    | some other =>
      left
      exact ⟨_, merge_of_foreign hplan hforeign⟩
    | none =>
      right
      rw [foreignKey?_eq_none_iff] at hforeign
      cases w with
      | skip =>
        left
        exact ⟨rfl, merge_of_skip hplan⟩
      | put r =>
        right
        left
        have hkey := hforeign r rfl
        exact ⟨r, rfl, hkey, merge_of_put hplan hkey⟩
      | replace r =>
        right
        right
        have hkey := hforeign r rfl
        exact ⟨r, rfl, hkey, merge_of_replace hplan hkey⟩

theorem merge_store_cases (s : MemoryStore ρ) (key : κ) (plan : Planner ρ) :
    (s.merge key plan).2 = s ∨ ∃ r, keyText r = RecordKey.encode key ∧ (s.merge key plan).2 = s.overwrite r := by
  rcases s.merge_cases key plan with ⟨e, h⟩ | ⟨_, h⟩ | ⟨r, _, hkey, h⟩ | ⟨r, _, hkey, h⟩
  · left
    rw [h]
  · left
    rw [h]
  · right
    refine ⟨keepOrdinal (s.find? (keyText r)) r, ?_, ?_⟩
    · rw [keyText_keepOrdinal, hkey]
    · rw [h]
  · right
    refine ⟨r, hkey, ?_⟩
    rw [h]

theorem find?_merge_of_ne (s : MemoryStore ρ) {key : κ} (plan : Planner ρ) {other : String}
    (h : other ≠ RecordKey.encode key) : (s.merge key plan).2.find? other = s.find? other := by
  cases s.merge_store_cases key plan with
  | inl hsame => rw [hsame]
  | inr hwritten =>
    obtain ⟨r, hkey, hwritten⟩ := hwritten
    rw [hwritten, find?_overwrite_of_ne]
    rwa [hkey]

def leaves (previous : Option ρ) : Write ρ → Option ρ
  | .skip => previous
  | .put r => some (keepOrdinal previous r)
  | .replace r => some r

theorem find?_merge_self {s : MemoryStore ρ} {key : κ} {plan : Planner ρ} {w : Write ρ}
    (h : plan (s.find? (RecordKey.encode key)) = .ok w)
    (hkey : ∀ r, w.written? = some r → keyText r = RecordKey.encode key) :
    (s.merge key plan).2.find? (RecordKey.encode key) = leaves (s.find? (RecordKey.encode key)) w := by
  cases w with
  | skip =>
    rw [merge_of_skip h]
    rfl
  | put r =>
    have hr := hkey r rfl
    have hself := s.find?_overwrite_self (keepOrdinal (s.find? (keyText r)) r)
    rw [keyText_keepOrdinal, hr] at hself
    rw [merge_of_put h hr, hr]
    exact hself
  | replace r =>
    have hr := hkey r rfl
    have hself := s.find?_overwrite_self r
    rw [hr] at hself
    rw [merge_of_replace h hr]
    exact hself

def carried (previous : Option ρ) : Write ρ → Write ρ
  | .skip => .skip
  | .put r => .put (keepOrdinal previous r)
  | .replace r => .replace r

theorem answer_merge_self {s : MemoryStore ρ} {key : κ} {plan : Planner ρ} {w : Write ρ}
    (h : plan (s.find? (RecordKey.encode key)) = .ok w)
    (hkey : ∀ r, w.written? = some r → keyText r = RecordKey.encode key) :
    (s.merge key plan).1 =
      .ok ⟨s.find? (RecordKey.encode key), carried (s.find? (RecordKey.encode key)) w⟩ := by
  cases w with
  | skip =>
    rw [merge_of_skip h]
    rfl
  | put r =>
    have hr := hkey r rfl
    rw [merge_of_put h hr, hr]
    rfl
  | replace r =>
    have hr := hkey r rfl
    rw [merge_of_replace h hr, hr]
    rfl

theorem Consistent.merge {s : MemoryStore ρ} (h : s.Consistent) (key : κ) (plan : Planner ρ) :
    (s.merge key plan).2.Consistent := by
  cases s.merge_store_cases key plan with
  | inl hsame => rwa [hsame]
  | inr hwritten =>
    obtain ⟨r, _, hwritten⟩ := hwritten
    rw [hwritten]
    apply h.overwrite

theorem upsert_eq (s : MemoryStore ρ) (r : ρ) :
    s.upsert r =
      (.ok (if (s.find? (keyText r)).isSome then .updated else .inserted,
          keepOrdinal (s.find? (keyText r)) r),
        s.overwrite (keepOrdinal (s.find? (keyText r)) r)) := by
  unfold upsert overwrite
  rw [keyText_keepOrdinal]
  rfl

inductive Reachable : MemoryStore ρ → Prop where
  | empty : Reachable empty
  | upsert {s : MemoryStore ρ} (h : Reachable s) (r : ρ) : Reachable (s.upsert r).2
  | merge {s : MemoryStore ρ} (h : Reachable s) (key : κ) (plan : Planner ρ) :
    Reachable (s.merge key plan).2

/--
One write under which a record that is stored already keeps its ordinal.
-/
inductive WritesInPlace (s : MemoryStore ρ) : MemoryStore ρ → Prop where
  | upsert (r : ρ) : WritesInPlace s (s.upsert r).2
  | merge (key : κ) (plan : Planner ρ)
    (h : ∀ r, plan (s.find? (RecordKey.encode key)) ≠ .ok (.replace r)) :
    WritesInPlace s (s.merge key plan).2

def Steady (s : MemoryStore ρ) (r : ρ) : Prop :=
  ∀ x, s.find? (keyText r) = some x → Record.ordinal x = Record.ordinal r

theorem steady_keepOrdinal (s : MemoryStore ρ) (r : ρ) : s.Steady (keepOrdinal (s.find? (keyText r)) r) := by
  intro x hx
  rw [keyText_keepOrdinal] at hx
  rw [hx, ordinal_keepOrdinal]

theorem Reachable.consistent {s : MemoryStore ρ} (h : s.Reachable) : s.Consistent := by
  induction h with
  | empty => apply consistent_empty
  | upsert _ r ih =>
    rw [upsert_eq]
    apply ih.overwrite
  | merge _ key plan ih => exact ih.merge key plan

theorem WritesInPlace.cases {s s' : MemoryStore ρ} (h : s.WritesInPlace s') :
    s' = s ∨ ∃ r, s.Steady r ∧ s' = s.overwrite r := by
  cases h with
  | upsert r =>
    right
    rw [upsert_eq]
    exact ⟨_, s.steady_keepOrdinal r, rfl⟩
  | merge key plan hplan =>
    rcases s.merge_cases key plan with ⟨e, h⟩ | ⟨_, h⟩ | ⟨r, _, _, h⟩ | ⟨r, hr, _, _⟩
    · left
      rw [h]
    · left
      rw [h]
    · right
      rw [h]
      exact ⟨_, s.steady_keepOrdinal r, rfl⟩
    · exact absurd hr (hplan r)

theorem WritesInPlace.consistent {s s' : MemoryStore ρ} (h : s.WritesInPlace s') (hs : s.Consistent) :
    s'.Consistent := by
  cases h.cases with
  | inl h => rwa [h]
  | inr h =>
    obtain ⟨r, _, h⟩ := h
    rw [h]
    apply hs.overwrite

theorem WritesInPlace.find? {s s' : MemoryStore ρ} (h : s.WritesInPlace s') {key : String} {x : ρ}
    (hx : s.find? key = some x) : ∃ y, s'.find? key = some y ∧ Record.ordinal y = Record.ordinal x := by
  cases h.cases with
  | inl h =>
    rw [h]
    exact ⟨x, hx, rfl⟩
  | inr h =>
    obtain ⟨r, hr, h⟩ := h
    rw [h]
    by_cases hkey : key = keyText r
    · rw [hkey] at hx ⊢
      exact ⟨r, s.find?_overwrite_self r, (hr x hx).symm⟩
    · rw [s.find?_overwrite_of_ne hkey]
      exact ⟨x, hx, rfl⟩

inductive Later (s : MemoryStore ρ) : MemoryStore ρ → Prop where
  | refl : Later s s
  | step {s' s'' : MemoryStore ρ} (h : Later s s') (hw : s'.WritesInPlace s'') : Later s s''

namespace Later

variable {s s' s'' : MemoryStore ρ}

theorem trans (h : s.Later s') (h' : s'.Later s'') : s.Later s'' := by
  induction h' with
  | refl => exact h
  | step _ hw ih => exact ih.step hw

theorem consistent (h : s.Later s') (hs : s.Consistent) : s'.Consistent := by
  induction h with
  | refl => exact hs
  | step _ hw ih => exact hw.consistent ih

theorem find? (h : s.Later s') {key : String} {x : ρ} (hx : s.find? key = some x) :
    ∃ y, s'.find? key = some y ∧ Record.ordinal y = Record.ordinal x := by
  induction h with
  | refl => exact ⟨x, hx, rfl⟩
  | step _ hw ih =>
    obtain ⟨y, hy, hyx⟩ := ih
    obtain ⟨z, hz, hzy⟩ := hw.find? hy
    exact ⟨z, hz, hzy.trans hyx⟩

theorem ordinal_eq (h : s.Later s') {key : String} {x y : ρ} (hx : s.find? key = some x)
    (hy : s'.find? key = some y) : Record.ordinal y = Record.ordinal x := by
  obtain ⟨z, hz, hzx⟩ := h.find? hx
  rw [hy] at hz
  rw [Option.some.inj hz, hzx]

end Later

end MemoryStore

end ChainIndex
