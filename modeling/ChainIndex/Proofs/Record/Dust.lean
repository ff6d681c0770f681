import ChainIndex.Record.Swap

/-!
This module contains the proof that the test for dust is exact. Sums stop at the highest amount, and a power of
ten above it is no amount at all, but neither is ever seen in the outcome: such a power lies above the sum of any
two amounts.
-/

namespace ChainIndex

namespace Amount

theorem pow_ten_le_or_lt (k : Nat) : Nat.pow 10 k ≤ max ∨ max + max < Nat.pow 10 k := by
  by_cases hk : k ≤ 38
  · left
    apply Nat.le_trans (Nat.pow_le_pow_right (by decide) hk)
    decide
  · right
    have hpow : Nat.pow 10 39 ≤ Nat.pow 10 k := Nat.pow_le_pow_right (by decide) (by omega)
    apply Nat.lt_of_lt_of_le _ hpow
    decide

@[simp]
theorem toNat_truncate (a : Amount) (decimals precision : UInt8) :
    (a.truncate decimals precision).toNat = a.toNat / Nat.pow 10 (decimals.toNat - precision.toNat) := by
  have hmax := a.le_max
  unfold truncate
  dsimp only
  split
  · rfl
  · next habove =>
    have hlt : a.toNat < Nat.pow 10 (decimals.toNat - precision.toNat) := by omega
    rw [Nat.div_eq_of_lt hlt]
    rfl

theorem isZero_truncate_add_iff {a b : Amount} {decimals precision : UInt8} :
    ((a + b).truncate decimals precision).isZero = true ↔
      a.toNat + b.toNat < Nat.pow 10 (decimals.toNat - precision.toNat) := by
  have ha := a.le_max
  have hb := b.le_max
  have hpos : 0 < Nat.pow 10 (decimals.toNat - precision.toNat) := Nat.pow_pos (by decide)
  have hpow := pow_ten_le_or_lt (decimals.toNat - precision.toNat)
  unfold isZero
  rw [beq_iff_eq, toNat_truncate, toNat_add, Nat.div_eq_zero_iff]
  omega

end Amount

structure TradeAmounts.Raised (before after : TradeAmounts) : Prop where
  in0 : before.in0.toNat ≤ after.in0.toNat
  out0 : before.out0.toNat ≤ after.out0.toNat
  in1 : before.in1.toNat ≤ after.in1.toNat
  out1 : before.out1.toNat ≤ after.out1.toNat

namespace SwapState

variable {s : SwapState} {precision : UInt8}

theorem hasDustLegs_iff :
    s.hasDustLegs precision = true ↔
      s.amounts.in0.toNat + s.amounts.out0.toNat < Nat.pow 10 (s.decimals.decimals0.toNat - precision.toNat) ∧
      s.amounts.in1.toNat + s.amounts.out1.toNat < Nat.pow 10 (s.decimals.decimals1.toNat - precision.toNat) := by
  unfold hasDustLegs legs
  rw [Bool.and_eq_true, Amount.isZero_truncate_add_iff, Amount.isZero_truncate_add_iff]

theorem hasDustLegs_mono (h : s.hasDustLegs precision = true) {coarser : UInt8} (hle : coarser ≤ precision) :
    s.hasDustLegs coarser = true := by
  have hpow : ∀ decimals : UInt8,
      Nat.pow 10 (decimals.toNat - precision.toNat) ≤ Nat.pow 10 (decimals.toNat - coarser.toNat) := by
    intro decimals
    rw [UInt8.le_iff_toNat_le] at hle
    apply Nat.pow_le_pow_right (by decide)
    omega
  rw [hasDustLegs_iff] at h ⊢
  constructor
  · exact Nat.lt_of_lt_of_le h.1 (hpow s.decimals.decimals0)
  · exact Nat.lt_of_lt_of_le h.2 (hpow s.decimals.decimals1)

theorem hasDustLegs_of_raised {raised : TradeAmounts} (hraised : s.amounts.Raised raised)
    (h : { s with amounts := raised }.hasDustLegs precision = true) : s.hasDustLegs precision = true := by
  obtain ⟨hin0, hout0, hin1, hout1⟩ := hraised
  rw [hasDustLegs_iff] at h ⊢
  dsimp only at h
  omega

/--
A trade is dust exactly if the sums of its legs, taken without bound, lie below one unit of the last decimal place
that is kept. Cutting an amount rounds it down to such units. Hence dust stays dust if fewer places are kept, and
what is no dust does not become dust when it grows.
-/
theorem hasDustLegs_exact (s : SwapState) (precision : UInt8) :
    (s.hasDustLegs precision = true ↔
      s.amounts.in0.toNat + s.amounts.out0.toNat < Nat.pow 10 (s.decimals.decimals0.toNat - precision.toNat) ∧
      s.amounts.in1.toNat + s.amounts.out1.toNat < Nat.pow 10 (s.decimals.decimals1.toNat - precision.toNat)) ∧
    (∀ (a : Amount) (decimals : UInt8),
      (a.truncate decimals precision).toNat = a.toNat / Nat.pow 10 (decimals.toNat - precision.toNat)) ∧
    (s.hasDustLegs precision = true → ∀ coarser ≤ precision, s.hasDustLegs coarser = true) ∧
    (s.hasDustLegs precision = false → ∀ raised, s.amounts.Raised raised →
      { s with amounts := raised }.hasDustLegs precision = false) := by
  refine ⟨hasDustLegs_iff, ?_, ?_, ?_⟩
  · intro a decimals
    exact a.toNat_truncate decimals precision
  · intro h coarser hle
    exact hasDustLegs_mono h hle
  · intro h raised hraised
    apply eq_false_of_ne_true
    intro hdust
    rw [hasDustLegs_of_raised hraised hdust] at h
    cases h

def overfullTrade : SwapState where
  key := ⟨.zero⟩
  swapType := .swap
  pair := ⟨.zero⟩
  txHash := ⟨.zero⟩
  blockNumber := 1
  amounts := ⟨.saturate Amount.max, .saturate Amount.max, .zero, .zero⟩
  reserves := .zero
  decimals := ⟨45, 6⟩
  timestamp := ⟨⟨1970, 1, 1⟩, ⟨0, 0, 0, 0⟩, by decide, by decide⟩
  ordinal := ⟨1⟩

theorem hasDustLegs_exact_overfull :
    overfullTrade.hasDustLegs 6 = true ∧ overfullTrade.hasDustLegs 5 = true ∧
    overfullTrade.hasDustLegs 7 = false ∧
    { overfullTrade with
      amounts := { overfullTrade.amounts with in1 := .saturate 1 } }.hasDustLegs 7 = false := by
  obtain ⟨hiff, _, hcoarser, _⟩ := hasDustLegs_exact overfullTrade 6
  obtain ⟨hiff', _, _, hraised⟩ := hasDustLegs_exact overfullTrade 7
  have hdust : overfullTrade.hasDustLegs 6 = true := hiff.2 (by decide +kernel)
  have hnone : overfullTrade.hasDustLegs 7 = false := by
    apply eq_false_of_ne_true
    intro hdust'
    exact absurd (hiff'.1 hdust') (by decide +kernel)
  refine ⟨hdust, hcoarser hdust 5 (by decide), hnone, ?_⟩
  apply hraised hnone
  constructor <;> decide

end SwapState

end ChainIndex
