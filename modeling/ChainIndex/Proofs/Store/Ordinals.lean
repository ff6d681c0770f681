import ChainIndex.Proofs.Store.Table

/-!
This module contains the proof that a store assigns the ordinal of a key once. What is stored stays stored, under
the ordinal of the first record that was written, until a merge decides to replace it outright.
-/

namespace ChainIndex

variable {ρ κ : Type} [RecordKey κ] [Record ρ κ]

open Cache (keyText)
open RecordStore (perform performAll)

omit [RecordKey κ] in
/--
What is left of records that are put under one key one after the other: the last one, with the ordinal of the first.
-/
def lastUnderFirst (written : List ρ) : Option ρ :=
  written.head?.bind fun first => written.getLast?.map (Record.setOrdinal (Record.ordinal first))

namespace Operation

def key : Operation ρ κ → κ
  | upsert r => Record.key r
  | merge key _ => key

def planner : Operation ρ κ → Planner ρ
  | upsert r => fun _ => .ok (.put r)
  | merge _ plan => plan

def Replaces (s : MemoryStore ρ) (key : κ) (operation : Operation ρ κ) : Prop :=
  operation.key = key ∧ ∃ r, operation.planner (s.find? (RecordKey.encode key)) = .ok (.replace r)

def recordFor? (s : MemoryStore ρ) (key : κ) (operation : Operation ρ κ) : Option ρ :=
  if RecordKey.encode operation.key = RecordKey.encode key then
    (operation.planner (s.find? (RecordKey.encode key))).toOption.bind fun w =>
      w.written?.filter fun r => keyText r = RecordKey.encode key
  else none

end Operation

namespace MemoryStore

def ReplacedBy (s : MemoryStore ρ) (key : κ) : List (Operation ρ κ) → Prop
  | [] => False
  | operation :: rest => operation.Replaces s key ∨ (perform s operation).2.ReplacedBy key rest

def recordsFor (s : MemoryStore ρ) (key : κ) : List (Operation ρ κ) → List ρ
  | [] => []
  | operation :: rest => (operation.recordFor? s key).toList ++ (perform s operation).2.recordsFor key rest

end MemoryStore

section lastUnderFirst

omit [RecordKey κ]

theorem lastUnderFirst_toList (previous : Option ρ) : lastUnderFirst previous.toList = previous := by
  cases previous with
  | none => rfl
  | some stored => exact congrArg some (Record.setOrdinal_ordinal stored)

theorem lastUnderFirst_concat (previous : Option ρ) (r : ρ) :
    lastUnderFirst (previous.toList ++ [r]) = some (MemoryStore.keepOrdinal previous r) := by
  cases previous with
  | none => exact congrArg some (Record.setOrdinal_ordinal r)
  | some stored => rfl

theorem exists_lastUnderFirst_cons (first : ρ) (rest : List ρ) :
    ∃ r, lastUnderFirst (first :: rest) = some r ∧ Record.ordinal r = Record.ordinal first := by
  refine ⟨Record.setOrdinal (Record.ordinal first) ((first :: rest).getLast (by simp)), ?_, ?_⟩
  · unfold lastUnderFirst
    rw [List.getLast?_eq_some_getLast (by simp)]
    rfl
  · apply Record.ordinal_setOrdinal

theorem lastUnderFirst_append (l m : List ρ) :
    lastUnderFirst ((lastUnderFirst l).toList ++ m) = lastUnderFirst (l ++ m) := by
  cases l with
  | nil => rfl
  | cons first rest =>
    obtain ⟨r, hr, hordinal⟩ := exists_lastUnderFirst_cons first rest
    rw [hr]
    cases m with
    | nil =>
      rw [List.append_nil, List.append_nil, hr]
      exact lastUnderFirst_toList (some r)
    | cons x m =>
      have hlast : ∀ l : List ρ, (l ++ x :: m).getLast? = (x :: m).getLast? := by
        intro l
        rw [List.getLast?_append, Option.or_of_isSome (by simp)]
      unfold lastUnderFirst
      rw [hlast, hlast]
      exact congrArg (fun ordinal => (x :: m).getLast?.map (Record.setOrdinal ordinal)) hordinal

end lastUnderFirst

namespace MemoryStore

variable {s : MemoryStore ρ} {key : κ}

theorem store_perform (s : MemoryStore ρ) (operation : Operation ρ κ) :
    (perform s operation).2 = (s.merge operation.key operation.planner).2 := by
  cases operation with
  | upsert r =>
    have hput : (s.merge (Record.key r) fun _ => .ok (.put r)) = _ := merge_of_put rfl rfl
    dsimp only [perform, Operation.key, Operation.planner, RecordStore.upsert]
    rw [hput, upsert_eq]
  | merge key plan => rfl

theorem exists_find?_perform {x : ρ} (hx : s.find? (RecordKey.encode key) = some x) (operation : Operation ρ κ) :
    ∃ y, (perform s operation).2.find? (RecordKey.encode key) = some y := by
  rw [store_perform]
  cases s.merge_store_cases operation.key operation.planner with
  | inl hsame =>
    rw [hsame]
    exact ⟨x, hx⟩
  | inr hwritten =>
    obtain ⟨r, _, hwritten⟩ := hwritten
    rw [hwritten]
    by_cases hown : RecordKey.encode key = keyText r
    · rw [hown]
      exact ⟨r, s.find?_overwrite_self r⟩
    · rw [s.find?_overwrite_of_ne hown]
      exact ⟨x, hx⟩

theorem filter_written?_of_foreign {w : Write ρ} {text other : String} (h : w.foreignKey? text = some other) :
    (w.written?.filter fun r => keyText r = text) = none := by
  unfold Write.foreignKey? at h
  rw [Option.filter_eq_some_iff, Option.map_eq_some_iff] at h
  obtain ⟨⟨r, hr, hother⟩, hne⟩ := h
  subst hother
  rw [hr, Option.filter_eq_none_iff]
  intro x hx
  rw [← Option.some.inj hx, decide_eq_true_eq]
  exact of_decide_eq_true hne

theorem filter_written?_of_own {w : Write ρ} {text : String} (h : w.foreignKey? text = none) :
    (w.written?.filter fun r => keyText r = text) = w.written? := by
  rw [foreignKey?_eq_none_iff] at h
  cases hr : w.written? with
  | none => rfl
  | some r => exact Option.filter_some_pos (decide_eq_true (h r hr))

theorem find?_perform {operation : Operation ρ κ} (h : ¬operation.Replaces s key) :
    (perform s operation).2.find? (RecordKey.encode key) =
      lastUnderFirst ((s.find? (RecordKey.encode key)).toList ++ (operation.recordFor? s key).toList) := by
  rw [store_perform]
  unfold Operation.recordFor?
  by_cases hown : RecordKey.encode operation.key = RecordKey.encode key
  · have hkey : operation.key = key := RecordKey.encode_inj hown
    subst hkey
    rw [if_pos rfl]
    cases hplan : operation.planner (s.find? (RecordKey.encode operation.key)) with
    | error e =>
      rw [merge_of_error hplan, Except.toOption, Option.bind_none, Option.toList_none, List.append_nil,
        lastUnderFirst_toList]
    | ok w =>
      rw [Except.toOption, Option.bind_some]
      cases hforeign : w.foreignKey? (RecordKey.encode operation.key) with
      | some other =>
        rw [merge_of_foreign hplan hforeign, filter_written?_of_foreign hforeign, Option.toList_none, List.append_nil,
          lastUnderFirst_toList]
      | none =>
        rw [find?_merge_self hplan (foreignKey?_eq_none_iff.1 hforeign), filter_written?_of_own hforeign]
        cases w with
        | skip => rw [Write.written?, Option.toList_none, List.append_nil, lastUnderFirst_toList, leaves]
        | put r => rw [Write.written?, Option.toList_some, lastUnderFirst_concat, leaves]
        | replace r => exact absurd ⟨rfl, r, hplan⟩ h
  · rw [if_neg hown, Option.toList_none, List.append_nil, lastUnderFirst_toList]
    exact s.find?_merge_of_ne operation.planner (Ne.symm hown)

theorem store_performAll_cons (s : MemoryStore ρ) (operation : Operation ρ κ) (rest : List (Operation ρ κ)) :
    (performAll s (operation :: rest)).2 = (performAll (perform s operation).2 rest).2 := rfl

theorem exists_find?_performAll {x : ρ} (hx : s.find? (RecordKey.encode key) = some x)
    (operations : List (Operation ρ κ)) :
    ∃ y, (performAll s operations).2.find? (RecordKey.encode key) = some y := by
  induction operations generalizing s x with
  | nil => exact ⟨x, hx⟩
  | cons operation rest ih =>
    obtain ⟨y, hy⟩ := exists_find?_perform hx operation
    exact ih hy

theorem find?_performAll {operations : List (Operation ρ κ)} (h : ¬s.ReplacedBy key operations) :
    (performAll s operations).2.find? (RecordKey.encode key) =
      lastUnderFirst ((s.find? (RecordKey.encode key)).toList ++ s.recordsFor key operations) := by
  induction operations generalizing s with
  | nil =>
    rw [recordsFor, List.append_nil, lastUnderFirst_toList]
    rfl
  | cons operation rest ih =>
    rw [ReplacedBy, not_or] at h
    rw [store_performAll_cons, ih h.2, find?_perform h.1, lastUnderFirst_append, List.append_assoc, recordsFor]

/--
A key that is stored stays stored. Unless it is replaced, its record has the ordinal that it had, and all else from
the record that was written last.
-/
theorem keeps_ordinal (s : MemoryStore ρ) (key : κ) (operations : List (Operation ρ κ)) :
    (∀ x, s.find? (RecordKey.encode key) = some x →
      ∃ y, (performAll s operations).2.find? (RecordKey.encode key) = some y ∧
        (¬s.ReplacedBy key operations → Record.ordinal y = Record.ordinal x)) ∧
    (¬s.ReplacedBy key operations → (performAll s operations).2.find? (RecordKey.encode key) =
      lastUnderFirst ((s.find? (RecordKey.encode key)).toList ++ s.recordsFor key operations)) := by
  refine ⟨?_, find?_performAll⟩
  intro x hx
  obtain ⟨y, hy⟩ := exists_find?_performAll hx operations
  refine ⟨y, hy, ?_⟩
  intro h
  obtain ⟨z, hz, hordinal⟩ := exists_lastUnderFirst_cons x (s.recordsFor key operations)
  rw [find?_performAll h, hx, Option.toList_some, List.singleton_append, hz] at hy
  rw [← Option.some.inj hy, hordinal]

end MemoryStore

end ChainIndex
