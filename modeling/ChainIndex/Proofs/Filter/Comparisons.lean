import ChainIndex.Filter.Text
import ChainIndex.Proofs.Filter.FieldNames
import ChainIndex.Proofs.Record.Rows
import ChainIndex.Proofs.Store.Scans
import ChainIndex.Proofs.Text.Utf8Order

/-!
This module contains the algebra of filters over a store: how the comparisons with one value divide the records, and
what becomes of a listing when the conditions of its filter are rearranged or more of them are added.
-/

namespace ChainIndex

namespace FilterValue

variable {j : Json} {v : FilterValue}

/--
A field and a value of one type. Numbers are integers without a sign.
-/
inductive SameType : Json → FilterValue → Prop where
  | bool (a b : Bool) : SameType (.bool a) (.bool b)
  | number (a b : UInt64) : SameType (.number (.unsigned a)) (.number b)
  | text (a b : String) : SameType (.text a) (.text b)

inductive Below : Json → FilterValue → Prop where
  | bool : Below (.bool false) (.bool true)
  | number {a b : UInt64} (h : a.toNat < b.toNat) : Below (.number (.unsigned a)) (.number b)
  | text {a b : String} (h : Utf8.bytes a < Utf8.bytes b) : Below (.text a) (.text b)

theorem isSome_compare?_iff : (compare? j v).isSome ↔ SameType j v := by
  constructor
  · intro h
    unfold compare? at h
    split at h
    · apply SameType.bool
    · apply SameType.number
    · apply SameType.text
    · cases h
  · intro h
    cases h with
    | bool | number | text => rfl

theorem compareOfLessAndEq_eq_eq_iff {α : Type} [LT α] [DecidableLT α] [DecidableEq α] (irrefl : ∀ a : α, ¬a < a)
    {a b : α} : compareOfLessAndEq a b = .eq ↔ a = b := by
  unfold compareOfLessAndEq
  constructor
  · intro h
    split at h
    · cases h
    · split at h
      · assumption
      · cases h
  · rintro rfl
    rw [if_neg (irrefl a), if_pos rfl]

theorem compare?_eq_eq_iff : compare? j v = some .eq ↔ j = v.toJson := by
  constructor
  · intro h
    unfold compare? at h
    split at h
    · rw [Option.some.injEq, compareOfLessAndEq_eq_eq_iff Bool.lt_irrefl] at h
      rw [h]
      rfl
    · rw [Option.some.injEq, compareOfLessAndEq_eq_eq_iff fun _ => UInt64.lt_irrefl _] at h
      rw [h]
      rfl
    · rw [Option.some.injEq, compareOfLessAndEq_eq_eq_iff String.lt_irrefl] at h
      rw [h]
      rfl
    · cases h
  · rintro rfl
    cases v with
    | bool b => exact congrArg some ((compareOfLessAndEq_eq_eq_iff Bool.lt_irrefl).2 rfl)
    | number n => exact congrArg some ((compareOfLessAndEq_eq_eq_iff fun _ => UInt64.lt_irrefl _).2 rfl)
    | text s => exact congrArg some ((compareOfLessAndEq_eq_eq_iff String.lt_irrefl).2 rfl)

theorem compare?_eq_lt_iff : compare? j v = some .lt ↔ Below j v := by
  constructor
  · intro h
    unfold compare? at h
    split at h
    · next a b =>
      cases a <;> cases b <;> cases h
      apply Below.bool
    · rw [Option.some.injEq, compareOfLessAndEq_eq_lt] at h
      apply Below.number h
    · rw [Option.some.injEq, compareOfLessAndEq_eq_lt] at h
      apply Below.text (Utf8.bytes_lt_iff.2 h)
    · cases h
  · intro h
    cases h with
    | bool => rfl
    | number h => exact congrArg some (compareOfLessAndEq_eq_lt.2 h)
    | text h => exact congrArg some (compareOfLessAndEq_eq_lt.2 (Utf8.bytes_lt_iff.1 h))

end FilterValue

/--
How the six comparisons with one value divide what can be compared with it.
-/
structure Trichotomy {ρ : Type} (found : Comparison → ρ → Prop) (comparable : ρ → Prop) : Prop where
  not_lt_and_eq : ∀ r, ¬(found .lt r ∧ found .eq r)
  not_lt_and_gt : ∀ r, ¬(found .lt r ∧ found .gt r)
  not_eq_and_gt : ∀ r, ¬(found .eq r ∧ found .gt r)
  lt_or_eq_or_gt_iff : ∀ r, found .lt r ∨ found .eq r ∨ found .gt r ↔ comparable r
  ne_iff : ∀ r, found .ne r ↔ found .lt r ∨ found .gt r
  lte_iff : ∀ r, found .lte r ↔ found .lt r ∨ found .eq r
  gte_iff : ∀ r, found .gte r ↔ found .eq r ∨ found .gt r
  not_found : ∀ r, ¬comparable r → ∀ comparison, ¬found comparison r

theorem Trichotomy.of_order {ρ : Type} {found : Comparison → ρ → Prop} {comparable : ρ → Prop}
    (h : ∀ r, (¬comparable r ∧ ∀ comparison, ¬found comparison r) ∨
      comparable r ∧ ∃ order, ∀ comparison, found comparison r ↔ comparison.accepts order = true) :
    Trichotomy found comparable := by
  constructor
  all_goals
    intro r
    cases h r with
    | inl hnone => simp [hnone]
    | inr hsome =>
      obtain ⟨hcomparable, order, hfound⟩ := hsome
      cases order <;> simp [hfound, hcomparable, Comparison.accepts]

namespace Condition

theorem accepts_iff {c : Condition} {record : Json} : c.accepts record = true ↔
    ∃ value order, record.field? c.field = some value ∧ FilterValue.compare? value c.value = some order ∧
      c.comparison.accepts order = true := by
  unfold accepts
  cases hvalue : record.field? c.field with
  | none => simp
  | some value =>
    cases horder : FilterValue.compare? value c.value with
    | none => simp [horder]
    | some order => simp [horder]

end Condition

namespace Filter

variable {f g : Filter} {record : Json}

def and (f : Filter) (c : Condition) : Filter :=
  ⟨f.conditions ++ [c]⟩

theorem accepts_iff : f.accepts record = true ↔ ∀ c ∈ f.conditions, c.accepts record = true :=
  List.all_eq_true

theorem accepts_and {c : Condition} : (f.and c).accepts record = (f.accepts record && c.accepts record) := by
  unfold and accepts
  simp

theorem accepts_of_subset (h : f.conditions ⊆ g.conditions) (hg : g.accepts record = true) :
    f.accepts record = true := by
  rw [accepts_iff] at hg ⊢
  intro c hc
  apply hg c (h hc)

theorem accepts_congr (h : ∀ c, c ∈ f.conditions ↔ c ∈ g.conditions) : f.accepts record = g.accepts record := by
  rw [Bool.eq_iff_iff, accepts_iff, accepts_iff]
  simp only [h]

theorem ensureValid_of_plain (h : ∀ c ∈ f.conditions, Condition.PlainName c.field) : f.ensureValid = .ok () :=
  mapError_eq_ok_iff.2 (validate_eq_ok_iff.2 h)

end Filter

namespace MemoryStore

variable {ρ κ : Type} [RecordKey κ] [Record ρ κ] {s : MemoryStore ρ} {f g : Filter}

def Finds (s : MemoryStore ρ) (f : Filter) (r : ρ) : Prop :=
  ∃ found, s.scan f ⟨none, .ascending⟩ s.size = .ok found ∧ r ∈ found

section rearranged

omit [RecordKey κ]

theorem accepts_congr (h : ∀ c, c ∈ f.conditions ↔ c ∈ g.conditions) :
    (accepts f : ρ → Bool) = accepts g := by
  funext r
  apply Filter.accepts_congr h

theorem count_congr (h : ∀ c, c ∈ f.conditions ↔ c ∈ g.conditions) (hf : f.ensureValid = .ok ())
    (hg : g.ensureValid = .ok ()) : s.count f = s.count g := by
  unfold count
  rw [hf, hg, accepts_congr h]

theorem scan_congr (h : ∀ c, c ∈ f.conditions ↔ c ∈ g.conditions) (hf : f.ensureValid = .ok ())
    (hg : g.ensureValid = .ok ()) (range : ScanRange) (limit : Nat) : s.scan f range limit = s.scan g range limit := by
  unfold scan
  rw [hf, hg, accepts_congr h]

end rearranged

theorem ordinalIn_congr (h : ∀ c, c ∈ f.conditions ↔ c ∈ g.conditions) (hf : f.ensureValid = .ok ())
    (hg : g.ensureValid = .ok ()) (key : κ) : s.ordinalIn key f = s.ordinalIn key g := by
  unfold ordinalIn
  rw [hf, hg, accepts_congr h]

namespace Consistent

theorem length_recordsIn_le (h : s.Consistent) (range : ScanRange) : (s.recordsIn range).length ≤ s.size := by
  have hin := List.length_filter_le (fun e => range.admits e.1) s.byPlace.toList
  rw [h.length_byPlace] at hin
  unfold recordsIn
  cases range.order with
  | ascending =>
    rw [List.length_map]
    apply hin
  | descending =>
    rw [List.length_reverse, List.length_map]
    apply hin

theorem scan_eq_filter (h : s.Consistent) (hf : f.ensureValid = .ok ()) (range : ScanRange) {limit : Nat}
    (hlimit : s.size ≤ limit) : s.scan f range limit = .ok ((s.recordsIn range).filter (accepts f)) := by
  have hin := h.length_recordsIn_le range
  have hfilter := List.length_filter_le (accepts f) (s.recordsIn range)
  unfold scan
  rw [hf, List.take_of_length_le (by omega)]
  rfl

theorem finds_iff (h : s.Consistent) (hf : f.ensureValid = .ok ()) {r : ρ} :
    s.Finds f r ↔ r ∈ s.records ∧ accepts f r = true := by
  have hall : s.recordsIn ⟨none, .ascending⟩ = s.records.reverse := by
    rw [h.recordsIn_eq]
    simp [ScanRange.admits]
  unfold Finds
  rw [h.scan_eq_filter hf _ (Nat.le_refl _), hall]
  simp

theorem scan_sublist (h : s.Consistent) (hf : f.ensureValid = .ok ()) (hg : g.ensureValid = .ok ())
    (hsubset : f.conditions ⊆ g.conditions) (range : ScanRange) {limit : Nat} (hlimit : s.size ≤ limit) :
    ∃ fewer all, s.scan g range limit = .ok fewer ∧ s.scan f range limit = .ok all ∧ fewer.Sublist all := by
  refine ⟨_, _, h.scan_eq_filter hg range hlimit, h.scan_eq_filter hf range hlimit, ?_⟩
  have hboth : ∀ r : ρ, accepts g r = (accepts g r && accepts f r) := by
    intro r
    cases hr : accepts g r with
    | false => rfl
    | true => exact (Filter.accepts_of_subset hsubset hr).symm
  rw [List.filter_congr fun r _ => hboth r, ← List.filter_filter]
  apply List.filter_sublist

end Consistent

namespace Consistent

variable {x : String} (hf : ∀ c ∈ f.conditions, Condition.PlainName c.field) (hx : Condition.PlainName x)

include hf hx

theorem finds_and_iff (h : s.Consistent) {comparison : Comparison} {v : FilterValue} {r : ρ} :
    s.Finds (f.and ⟨x, comparison, v⟩) r ↔ s.Finds f r ∧ ∃ value order,
      (Record.toJson r).field? x = some value ∧ FilterValue.compare? value v = some order ∧
        comparison.accepts order = true := by
  have hand : ∀ c ∈ (f.and ⟨x, comparison, v⟩).conditions, Condition.PlainName c.field := by
    intro c hc
    rcases List.mem_append.1 hc with hc | hc
    · apply hf c hc
    · rw [List.mem_singleton.1 hc]
      apply hx
  rw [h.finds_iff (Filter.ensureValid_of_plain hand), h.finds_iff (Filter.ensureValid_of_plain hf), and_assoc]
  unfold accepts
  rw [Filter.accepts_and, Bool.and_eq_true, Condition.accepts_iff]

theorem trichotomy (h : s.Consistent) (v : FilterValue) :
    Trichotomy (fun comparison => s.Finds (f.and ⟨x, comparison, v⟩)) fun r =>
      s.Finds f r ∧ ∃ value, (Record.toJson r).field? x = some value ∧ FilterValue.SameType value v := by
  apply Trichotomy.of_order
  intro r
  simp only [h.finds_and_iff hf hx, ← FilterValue.isSome_compare?_iff]
  by_cases hfound : s.Finds f r
  · cases hvalue : (Record.toJson r).field? x with
    | none => simp
    | some value =>
      cases horder : FilterValue.compare? value v with
      | none => simp [horder]
      | some order =>
        right
        refine ⟨by simp [hfound, horder], order, ?_⟩
        simp [hfound, horder]
  · simp [hfound]

theorem finds_eq_iff (h : s.Consistent) {v : FilterValue} {r : ρ} :
    s.Finds (f.and ⟨x, .eq, v⟩) r ↔ s.Finds f r ∧ (Record.toJson r).field? x = some v.toJson := by
  have heq : ∀ order, Comparison.eq.accepts order = true ↔ order = .eq := fun _ => beq_iff_eq
  rw [h.finds_and_iff hf hx]
  simp [heq, FilterValue.compare?_eq_eq_iff]

theorem finds_lt_iff (h : s.Consistent) {v : FilterValue} {r : ρ} :
    s.Finds (f.and ⟨x, .lt, v⟩) r ↔ s.Finds f r ∧ ∃ value, (Record.toJson r).field? x = some value ∧
      FilterValue.Below value v := by
  have hlt : ∀ order, Comparison.lt.accepts order = true ↔ order = .lt := fun _ => beq_iff_eq
  rw [h.finds_and_iff hf hx]
  simp [hlt, FilterValue.compare?_eq_lt_iff]

end Consistent

/--
The comparisons of a field with a value divide the records that have a value of that type in the field. The order of
the conditions does not matter, nor how often each stands in the filter, and further conditions only take records away.
-/
theorem comparisons_exact (kind : RecordKind) {s : MemoryStore kind.Entry} (hs : s.Reachable) {f : Filter}
    (hf : ∀ c ∈ f.conditions, Condition.PlainName c.field) :
    (∀ x, Condition.PlainName x → ∀ v : FilterValue,
      Trichotomy (fun comparison => s.Finds (f.and ⟨x, comparison, v⟩)) (fun r =>
        s.Finds f r ∧ ∃ value, (Record.toJson r).field? x = some value ∧ FilterValue.SameType value v) ∧
      (∀ r, s.Finds (f.and ⟨x, .eq, v⟩) r ↔ s.Finds f r ∧ (Record.toJson r).field? x = some v.toJson) ∧
      (∀ r, s.Finds (f.and ⟨x, .lt, v⟩) r ↔ s.Finds f r ∧ ∃ value, (Record.toJson r).field? x = some value ∧
        FilterValue.Below value v)) ∧
    (∀ g : Filter, (∀ c, c ∈ g.conditions ↔ c ∈ f.conditions) →
      s.count g = s.count f ∧ (∀ key, s.ordinalIn key g = s.ordinalIn key f) ∧
        ∀ range limit, s.scan g range limit = s.scan f range limit) ∧
    ∀ g : Filter, (∀ c ∈ g.conditions, Condition.PlainName c.field) → f.conditions ⊆ g.conditions →
      ∀ range limit, s.size ≤ limit → ∃ fewer all, s.scan g range limit = .ok fewer ∧
        s.scan f range limit = .ok all ∧ fewer.Sublist all := by
  have h := hs.consistent
  have hvalid := Filter.ensureValid_of_plain hf
  refine ⟨?_, ?_, ?_⟩
  · intro x hx v
    exact ⟨h.trichotomy hf hx v, fun r => h.finds_eq_iff hf hx, fun r => h.finds_lt_iff hf hx⟩
  · intro g hg
    have hplain : ∀ c ∈ g.conditions, Condition.PlainName c.field := by
      intro c hc
      apply hf c ((hg c).1 hc)
    have hvalid' := Filter.ensureValid_of_plain hplain
    exact ⟨count_congr hg hvalid' hvalid, ordinalIn_congr hg hvalid' hvalid, scan_congr hg hvalid' hvalid⟩
  · intro g hg hsubset range limit hlimit
    exact h.scan_sublist hvalid (Filter.ensureValid_of_plain hg) hsubset range hlimit

def onePending : MemoryStore WithdrawRequest :=
  (empty.upsert (Row.pendingRequest 5)).2

theorem comparisons_exact_absent_field :
    onePending.Reachable ∧
    (∀ comparison, ¬onePending.Finds (Filter.all.and ⟨"withdrawn_at", comparison, .text "2024"⟩)
      (Row.pendingRequest 5)) ∧
    onePending.Finds (Filter.all.and ⟨"validator_id", .lt, .number 2⟩) (Row.pendingRequest 5) := by
  have hreachable : onePending.Reachable := .upsert .empty _
  have hplain : ∀ c ∈ Filter.all.conditions, Condition.PlainName c.field := by
    intro c hc
    cases hc
  obtain ⟨hcompare, _, _⟩ := comparisons_exact .withdrawRequest hreachable hplain
  refine ⟨hreachable, ?_, ?_⟩
  · have hname : Condition.PlainName "withdrawn_at" := Condition.isPlain_iff.1 (by decide +kernel)
    apply (hcompare _ hname _).1.not_found
    rintro ⟨_, value, hvalue, htype⟩
    have hnull : (Record.toJson (Row.pendingRequest 5)).field? "withdrawn_at" = some .null := rfl
    rw [hnull] at hvalue
    cases hvalue
    cases htype
  · have hname : Condition.PlainName "validator_id" := Condition.isPlain_iff.1 (by decide +kernel)
    have hfinds : onePending.Finds .all (Row.pendingRequest 5) := ⟨_, rfl, List.mem_singleton.2 rfl⟩
    apply ((hcompare _ hname _).2.2 _).2
    exact ⟨hfinds, _, rfl, .number (by decide)⟩

end MemoryStore

end ChainIndex
