import ChainIndex.Error

/-!
This module contains the proof that ordinals are positions on the chain in another form. The three components of a
position fit side by side into an ordinal, the most significant first, and never reach the sign of a signed number.
-/

namespace ChainIndex

theorem toNat_shiftLeft_or {a b s : UInt64} (hs : s.toNat < 64) (ha : a.toNat * Nat.pow 2 s.toNat < UInt64.size)
    (hb : b.toNat < Nat.pow 2 s.toNat) : (a <<< s ||| b).toNat = a.toNat * Nat.pow 2 s.toNat + b.toNat := by
  have hshift : (a <<< s).toNat = a.toNat <<< s.toNat := by
    rw [UInt64.toNat_shiftLeft, Nat.mod_eq_of_lt hs]
    apply Nat.mod_eq_of_lt
    rw [Nat.shiftLeft_eq]
    apply ha
  rw [UInt64.toNat_or, hshift, ← Nat.shiftLeft_add_eq_or_of_lt hb, Nat.shiftLeft_eq]
  rfl

namespace ChainPosition

variable {p q : ChainPosition}

instance : LT ChainPosition where
  lt p q := p.block < q.block ∨
    p.block = q.block ∧ (p.txIndex < q.txIndex ∨ p.txIndex = q.txIndex ∧ p.logIndex < q.logIndex)

theorem lt_iff : p < q ↔ p.block < q.block ∨
    p.block = q.block ∧ (p.txIndex < q.txIndex ∨ p.txIndex = q.txIndex ∧ p.logIndex < q.logIndex) :=
  Iff.rfl

structure Packable (p : ChainPosition) : Prop where
  block : p.block.toNat ≤ Nat.pow 2 39 - 1
  txIndex : p.txIndex.toNat < Nat.pow 2 14
  logIndex : p.logIndex.toNat < Nat.pow 2 10

def packed (p : ChainPosition) : UInt64 :=
  (p.block <<< 14 ||| p.txIndex.toUInt64) <<< 10 ||| p.logIndex.toUInt64

def rank (p : ChainPosition) : Nat :=
  (p.block.toNat * 16384 + p.txIndex.toNat) * 1024 + p.logIndex.toNat

namespace Packable

theorem bounds (h : p.Packable) :
    p.block.toNat < 549755813888 ∧ p.txIndex.toNat < 16384 ∧ p.logIndex.toNat < 1024 := by
  obtain ⟨hblock, htx, hlog⟩ := h
  simp at hblock htx hlog
  omega

theorem rank_lt (h : p.Packable) : p.rank < UInt64.size / 2 := by
  have hhalf : UInt64.size / 2 = 9223372036854775808 := rfl
  have hbounds := h.bounds
  unfold rank
  omega

theorem toNat_packed (h : p.Packable) : p.packed.toNat = p.rank := by
  have hsize : UInt64.size = 18446744073709551616 := rfl
  have hbounds := h.bounds
  have hupper : (p.block <<< 14 ||| p.txIndex.toUInt64).toNat = p.block.toNat * 16384 + p.txIndex.toNat := by
    rw [toNat_shiftLeft_or]
    · simp
    · decide
    · simp
      omega
    · simp
      omega
  unfold packed rank
  rw [toNat_shiftLeft_or, hupper]
  · simp
  · decide
  · rw [hupper]
    simp
    omega
  · simp
    omega

theorem rank_lt_iff (hp : p.Packable) (hq : q.Packable) : p.rank < q.rank ↔ p < q := by
  have hpb := hp.bounds
  have hqb := hq.bounds
  rw [lt_iff, UInt64.lt_iff_toNat_lt, UInt32.lt_iff_toNat_lt, UInt32.lt_iff_toNat_lt, ← UInt64.toNat_inj,
    ← UInt32.toNat_inj]
  unfold rank
  omega

theorem rank_eq_iff (hp : p.Packable) (hq : q.Packable) : p.rank = q.rank ↔ p = q := by
  have hpb := hp.bounds
  have hqb := hq.bounds
  have hext : p = q ↔ p.block = q.block ∧ p.txIndex = q.txIndex ∧ p.logIndex = q.logIndex := by
    cases p
    cases q
    simp
  rw [hext, ← UInt64.toNat_inj, ← UInt32.toNat_inj, ← UInt32.toNat_inj]
  unfold rank
  omega

end Packable

end ChainPosition

namespace Ordinal

variable {p q : ChainPosition} {o x y : Ordinal} {n : Int64}

open ChainPosition

theorem toNat_le_maxValue_iff {n : UInt64} : n.toNat ≤ Int64.maxValue.toInt ↔ n.toNat < UInt64.size / 2 := by
  have hmax : Int64.maxValue.toInt = 9223372036854775807 := rfl
  have hhalf : UInt64.size / 2 = 9223372036854775808 := rfl
  omega

theorem toSigned_of_le (h : o.value.toNat ≤ Int64.maxValue.toInt) : o.toSigned = .ok o.value.toInt64 := by
  rw [toSigned, if_pos (toNat_le_maxValue_iff.1 h)]

theorem toSigned_of_lt (h : Int64.maxValue.toInt < o.value.toNat) : o.toSigned = .error (.exceedsSigned o) := by
  rw [toSigned, if_neg]
  rw [← toNat_le_maxValue_iff]
  exact Int.not_le.2 h

theorem toInt_toInt64 {n : UInt64} (h : n.toNat ≤ Int64.maxValue.toInt) : n.toInt64.toInt = n.toNat := by
  have hhalf := toNat_le_maxValue_iff.1 h
  unfold UInt64.size at hhalf
  dsimp only [UInt64.toInt64, Int64.toInt, Int64.toBitVec]
  apply BitVec.toInt_eq_toNat_of_lt
  rw [UInt64.toNat_toBitVec]
  omega

theorem ofSigned_of_nonneg (h : 0 ≤ n.toInt) : ofSigned n = .ok ⟨n.toUInt64⟩ :=
  if_pos h

theorem toNat_toUInt64 (h : 0 ≤ n.toInt) : (n.toUInt64.toNat : Int) = n.toInt := by
  rw [Int64.toNat_toUInt64_of_le (Int64.le_iff_toInt_le.2 h)]
  exact Int.toNat_of_nonneg h

theorem toSigned_eq_ok_iff : o.toSigned = .ok n ↔ n.toInt = o.value.toNat := by
  by_cases h : o.value.toNat ≤ Int64.maxValue.toInt
  · rw [toSigned_of_le h, ← toInt_toInt64 h, Int64.toInt_inj, Except.ok.injEq, eq_comm]
  · have hn : n.toInt ≤ Int64.maxValue.toInt := n.toInt_le
    rw [toSigned_of_lt (Int.not_le.1 h)]
    simp
    omega

theorem ofSigned_eq_ok_iff : ofSigned n = .ok o ↔ n.toInt = o.value.toNat := by
  by_cases h : 0 ≤ n.toInt
  · have hext : (⟨n.toUInt64⟩ : Ordinal) = o ↔ n.toUInt64 = o.value := by
      cases o
      simp
    rw [ofSigned_of_nonneg h, ← toNat_toUInt64 h, Except.ok.injEq, hext, ← UInt64.toNat_inj, Int.natCast_inj]
  · rw [ofSigned, if_neg h]
    simp
    omega

theorem ofPosition_of_packable (h : p.Packable) : ofPosition p = .ok ⟨UInt64.ofNat p.rank⟩ := by
  have hblock : ¬maxBlock < p.block.toNat := Nat.not_lt.2 h.block
  have htx : ¬Nat.pow 2 txIndexBits ≤ p.txIndex.toNat := Nat.not_le.2 h.txIndex
  have hlog : ¬Nat.pow 2 logIndexBits ≤ p.logIndex.toNat := Nat.not_le.2 h.logIndex
  rw [ofPosition, if_neg hblock, if_neg htx, if_neg hlog]
  rfl

theorem ofPosition_of_not_packable (h : ¬p.Packable) : ∃ fault, ofPosition p = .error fault := by
  unfold ofPosition
  split
  · exact ⟨_, rfl⟩
  · next hblock =>
    split
    · exact ⟨_, rfl⟩
    · next htx =>
      split
      · exact ⟨_, rfl⟩
      · next hlog => exact absurd ⟨Nat.not_lt.1 hblock, Nat.not_le.1 htx, Nat.not_le.1 hlog⟩ h

theorem ofPosition_eq_ok_iff : ofPosition p = .ok o ↔ p.Packable ∧ o.value.toNat = p.rank := by
  by_cases h : p.Packable
  · have hsize : p.rank < UInt64.size := Nat.lt_of_lt_of_le h.rank_lt (by decide)
    have hext : (⟨UInt64.ofNat p.rank⟩ : Ordinal) = o ↔ UInt64.ofNat p.rank = o.value := by
      cases o
      simp
    rw [ofPosition_of_packable h, Except.ok.injEq, hext, ← UInt64.toNat_inj, UInt64.toNat_ofNat_of_lt' hsize]
    simp [h, eq_comm]
  · obtain ⟨fault, hfault⟩ := ofPosition_of_not_packable h
    rw [hfault]
    simp [h]

theorem lt_iff_of_ofPosition (hx : ofPosition p = .ok x) (hy : ofPosition q = .ok y) : x < y ↔ p < q := by
  obtain ⟨hp, hx⟩ := ofPosition_eq_ok_iff.1 hx
  obtain ⟨hq, hy⟩ := ofPosition_eq_ok_iff.1 hy
  rw [← hp.rank_lt_iff hq, ← hx, ← hy]
  apply UInt64.lt_iff_toNat_lt

theorem eq_iff_of_ofPosition (hx : ofPosition p = .ok x) (hy : ofPosition q = .ok y) : x = y ↔ p = q := by
  obtain ⟨hp, hx⟩ := ofPosition_eq_ok_iff.1 hx
  obtain ⟨hq, hy⟩ := ofPosition_eq_ok_iff.1 hy
  rw [← hp.rank_eq_iff hq, ← hx, ← hy, UInt64.toNat_inj]
  cases x
  cases y
  simp

theorem exists_toSigned_iff : (∃ n, o.toSigned = .ok n) ↔ o.value.toNat ≤ Nat.pow 2 63 - 1 := by
  constructor
  · rintro ⟨n, hn⟩
    have hle : n.toInt ≤ 9223372036854775807 := n.toInt_le
    rw [toSigned_eq_ok_iff] at hn
    simp
    omega
  · intro h
    exact ⟨_, toSigned_of_le (toNat_le_maxValue_iff.2 (Nat.lt_succ_of_le h))⟩

theorem exists_ofSigned_iff : (∃ o, ofSigned n = .ok o) ↔ 0 ≤ n.toInt := by
  constructor
  · rintro ⟨o, ho⟩
    rw [ofSigned_eq_ok_iff] at ho
    omega
  · intro h
    exact ⟨_, ofSigned_of_nonneg h⟩

theorem toSigned_eq_ok_iff_ofSigned_eq_ok : o.toSigned = .ok n ↔ ofSigned n = .ok o := by
  rw [toSigned_eq_ok_iff, ofSigned_eq_ok_iff]

theorem exists_toSigned_of_ofPosition (h : ofPosition p = .ok o) : ∃ n, o.toSigned = .ok n := by
  obtain ⟨hp, hrank⟩ := ofPosition_eq_ok_iff.1 h
  have hlt : o.value.toNat < UInt64.size / 2 := hrank ▸ hp.rank_lt
  exact ⟨_, toSigned_of_le (toNat_le_maxValue_iff.2 hlt)⟩

theorem value_of_ofPosition (h : ofPosition p = .ok o) : o.value = p.packed := by
  obtain ⟨hp, hrank⟩ := ofPosition_eq_ok_iff.1 h
  rw [← UInt64.toNat_inj, hrank, hp.toNat_packed]

/--
A position has an ordinal exactly if its components keep to their bits. Ordinals of positions are the components side
by side, compare as the positions do and fit a signed number. Conversions to signed numbers and back undo each other.
-/
theorem ofPosition_exact :
    (∀ p : ChainPosition,
      ((∃ o, ofPosition p = .ok o) ↔ p.Packable) ∧
      ((∃ detail, (ofPosition p).mapError OrdinalFault.toError = .error (.ordinalOverflow detail)) ↔ ¬p.Packable) ∧
      ∀ o, ofPosition p = .ok o → o.value = p.packed ∧ ∃ n, o.toSigned = .ok n ∧ ofSigned n = .ok o) ∧
    (∀ (p q : ChainPosition) (x y : Ordinal), ofPosition p = .ok x → ofPosition q = .ok y →
      (x < y ↔ p < q) ∧ (x = y ↔ p = q)) ∧
    (∀ o : Ordinal, (∃ n, o.toSigned = .ok n) ↔ o.value.toNat ≤ Nat.pow 2 63 - 1) ∧
    (∀ n : Int64, (∃ o, ofSigned n = .ok o) ↔ 0 ≤ n.toInt) ∧
    (∀ (o : Ordinal) (n : Int64), (o.toSigned = .ok n ↔ ofSigned n = .ok o) ∧
      (o.toSigned = .ok n ↔ n.toInt = o.value.toNat)) := by
  refine ⟨?_, ?_, ?_, ?_, ?_⟩
  · intro p
    refine ⟨?_, ?_, ?_⟩
    · constructor
      · rintro ⟨o, ho⟩
        exact (ofPosition_eq_ok_iff.1 ho).1
      · intro h
        exact ⟨_, ofPosition_of_packable h⟩
    · constructor
      · rintro ⟨detail, hdetail⟩ h
        rw [ofPosition_of_packable h] at hdetail
        cases hdetail
      · intro h
        obtain ⟨fault, hfault⟩ := ofPosition_of_not_packable h
        rw [hfault]
        exact ⟨_, rfl⟩
    · intro o ho
      obtain ⟨n, hn⟩ := exists_toSigned_of_ofPosition ho
      exact ⟨value_of_ofPosition ho, n, hn, toSigned_eq_ok_iff_ofSigned_eq_ok.1 hn⟩
  · intro p q x y hx hy
    exact ⟨lt_iff_of_ofPosition hx hy, eq_iff_of_ofPosition hx hy⟩
  · intro o
    apply exists_toSigned_iff
  · intro n
    apply exists_ofSigned_iff
  · intro o n
    exact ⟨toSigned_eq_ok_iff_ofSigned_eq_ok, toSigned_eq_ok_iff⟩

theorem ofPosition_exact_next_block :
    ofPosition ⟨549755813886, 16383, 1023⟩ = .ok ⟨9223372036837998591⟩ ∧
    ofPosition ⟨549755813887, 0, 0⟩ = .ok ⟨9223372036837998592⟩ ∧
    (⟨9223372036837998591⟩ : Ordinal) < ⟨9223372036837998592⟩ ∧
    (∃ n, (⟨9223372036837998592⟩ : Ordinal).toSigned = .ok n ∧ ofSigned n = .ok ⟨9223372036837998592⟩) := by
  obtain ⟨hpositions, horder, _⟩ := ofPosition_exact
  have hlast : ofPosition ⟨549755813886, 16383, 1023⟩ = .ok ⟨9223372036837998591⟩ := rfl
  have hfirst : ofPosition ⟨549755813887, 0, 0⟩ = .ok ⟨9223372036837998592⟩ := rfl
  refine ⟨hlast, hfirst, ?_, ?_⟩
  · apply (horder _ _ _ _ hlast hfirst).1.2
    exact .inl (by decide)
  · exact ((hpositions _).2.2 _ hfirst).2

end Ordinal

end ChainIndex
