import ChainIndex.Proofs.Record.Rows
import ChainIndex.Proofs.Store.Ordinals

/-!
This module contains what records of every kind are made from, and the proof that a record that is made from a position
on the chain fits a row of a table. Epochs are numbered freely, so an epoch fits a row only if its number does.
-/

namespace ChainIndex

variable {ρ κ : Type} [RecordKey κ] [Record ρ κ]

open Cache (keyText)
open RecordStore (performAll)

theorem Row.exists_ofRecord_iff {r : ρ} :
    (∃ row, Row.ofRecord r = .ok row) ↔ (Record.ordinal r).value.toNat ≤ Nat.pow 2 63 - 1 := by
  rw [← Ordinal.exists_toSigned_iff]
  constructor
  · rintro ⟨row, h⟩
    obtain ⟨n, hn, _⟩ := bind_eq_ok_iff.1 h
    exact ⟨n, hn⟩
  · rintro ⟨n, hn⟩
    unfold Row.ofRecord
    rw [hn]
    exact ⟨_, rfl⟩

namespace MemoryStore

def FitsTable (s : MemoryStore ρ) : Prop :=
  ∀ key r, s.find? key = some r → ∃ row, Row.ofRecord r = .ok row

namespace FitsTable

variable {s : MemoryStore ρ}

theorem empty : (empty : MemoryStore ρ).FitsTable := by
  intro key r hr
  cases hr

theorem overwrite (h : s.FitsTable) {r : ρ} (hr : ∃ row, Row.ofRecord r = .ok row) : (s.overwrite r).FitsTable := by
  intro key x hx
  by_cases hkey : key = keyText r
  · rw [hkey, find?_overwrite_self, Option.some.injEq] at hx
    rwa [← hx]
  · rw [s.find?_overwrite_of_ne hkey] at hx
    exact h key x hx

theorem upsert (h : s.FitsTable) {r : ρ} (hr : ∃ row, Row.ofRecord r = .ok row) : (s.upsert r).2.FitsTable := by
  rw [upsert_eq]
  apply h.overwrite
  cases hprevious : s.find? (keyText r) with
  | none => exact hr
  | some stored =>
    -- The record that was there before passes its ordinal on.
    rw [Row.exists_ofRecord_iff, ordinal_keepOrdinal, ← Row.exists_ofRecord_iff]
    exact h _ stored hprevious

theorem performAll (h : s.FitsTable) {records : List ρ} (hrecords : ∀ r ∈ records, ∃ row, Row.ofRecord r = .ok row) :
    (RecordStore.performAll s (records.map .upsert)).2.FitsTable := by
  induction records generalizing s with
  | nil => exact h
  | cons r rest ih =>
    rw [List.map_cons, store_performAll_cons]
    apply ih
    · apply h.upsert
      exact hrecords r List.mem_cons_self
    · intro x hx
      exact hrecords x (List.mem_cons_of_mem r hx)

end FitsTable

end MemoryStore

/--
What a record of a kind is made from. The state of a swap is made from a trade or from a snapshot of the reserves.
-/
inductive Draft : RecordKind → Type where
  | transaction (hash : TxHash) (block : UInt64) (txIndex : UInt32) (sender : Address) (recipient : Option Address)
    (value : Amount) (status : TxStatus) (time : Timestamp) : Draft .transaction
  | delegation (key : DelegationKey) (amount : Amount) (tx : TxHash) (position : ChainPosition) (time : Timestamp) :
    Draft .delegation
  | rewardClaim (tx : TxHash) (position : ChainPosition) (delegator : Address) (validatorId : UInt64)
    (amount : Amount) (restaked : Bool) (time : Timestamp) : Draft .rewardClaim
  | withdrawRequest (key : WithdrawRequestKey) (validatorId : UInt64) (amount : Amount) (tx : TxHash)
    (position : ChainPosition) (time : Timestamp) : Draft .withdrawRequest
  | epoch (id : UInt64) (endTime : Timestamp) (supply reward fee : Amount) : Draft .epoch
  | contract (address : Address) (tx : TxHash) (position : ChainPosition) (time : Timestamp) : Draft .contract
  | tokenTransaction (tx : TxHash) (position : ChainPosition) (token : Address) (tokenType : TokenType)
    (sender recipient : Address) (amount : Amount) (time : Timestamp) : Draft .tokenTransaction
  | trade (pair : Address) (tx : TxHash) (position : ChainPosition) (amounts : TradeAmounts) (decimals : PairDecimals)
    (time : Timestamp) : Draft .swap
  | snapshot (pair : Address) (tx : TxHash) (position : ChainPosition) (reserves : Reserves)
    (decimals : PairDecimals) (time : Timestamp) : Draft .swap
  | burn (block : UInt64) (amount : Amount) (txs : List TxHash) : Draft .burn

namespace Draft

variable {kind : RecordKind} {d e : Draft kind} {p q : ChainPosition} {r s : kind.Entry}

def create : {kind : RecordKind} → Draft kind → Except OrdinalFault kind.Entry
  | _, transaction hash block txIndex sender recipient value status time =>
    Transaction.create hash block txIndex sender recipient value status time
  | _, delegation key amount tx position time => Delegation.create key amount tx position time
  | _, rewardClaim tx position delegator validatorId amount restaked time =>
    RewardClaim.create tx position delegator validatorId amount restaked time
  | _, withdrawRequest key validatorId amount tx position time =>
    WithdrawRequest.create key validatorId amount tx position time
  | _, epoch id endTime supply reward fee => .ok (Epoch.create id endTime supply reward fee)
  | _, contract address tx position time => Contract.create address tx position time
  | _, tokenTransaction tx position token tokenType sender recipient amount time =>
    TokenTransaction.create tx position token tokenType sender recipient amount time
  | _, trade pair tx position amounts decimals time => SwapState.ofTrade pair tx position amounts decimals time
  | _, snapshot pair tx position reserves decimals time =>
    SwapState.ofSnapshot pair tx position reserves decimals time
  | _, burn block amount txs => BurnEntry.create block amount txs

def position? : {kind : RecordKind} → Draft kind → Option ChainPosition
  | _, transaction _ block txIndex _ _ _ _ _ => some (.ofTransaction block txIndex)
  | _, delegation _ _ _ position _ => some position
  | _, rewardClaim _ position _ _ _ _ _ => some position
  | _, withdrawRequest _ _ _ _ position _ => some position
  | _, epoch _ _ _ _ _ => none
  | _, contract _ _ position _ => some position
  | _, tokenTransaction _ position _ _ _ _ _ _ => some position
  | _, trade _ _ position _ _ _ => some position
  | _, snapshot _ _ position _ _ _ => some position
  | _, burn block _ _ => some (.ofTransaction block 0)

theorem exists_position (h : kind ≠ .epoch) (d : Draft kind) : ∃ p, d.position? = some p := by
  cases d with
  | epoch => contradiction
  | _ => exact ⟨_, rfl⟩

theorem exists_create_eq_map (h : d.position? = some p) :
    ∃ build : Ordinal → kind.Entry, d.create = (Ordinal.ofPosition p).map build ∧
      ∀ o, Record.ordinal (build o) = o := by
  cases d with
  | epoch => cases h
  | _ =>
    cases h
    exact ⟨_, rfl, fun _ => rfl⟩

theorem ofPosition_of_create (hp : d.position? = some p) (h : d.create = .ok r) :
    Ordinal.ofPosition p = .ok (Record.ordinal r) := by
  obtain ⟨build, hcreate, hbuild⟩ := exists_create_eq_map hp
  rw [hcreate] at h
  obtain ⟨o, ho, hr⟩ := map_eq_ok_iff.1 h
  rw [← hr, hbuild, ho]

theorem exists_create_iff (hp : d.position? = some p) : (∃ r, d.create = .ok r) ↔ p.Packable := by
  constructor
  · rintro ⟨r, hr⟩
    exact (Ordinal.ofPosition_eq_ok_iff.1 (ofPosition_of_create hp hr)).1
  · intro h
    obtain ⟨build, hcreate, _⟩ := exists_create_eq_map hp
    rw [hcreate, Ordinal.ofPosition_of_packable h]
    exact ⟨_, rfl⟩

theorem exists_ofRecord_of_create (hkind : kind ≠ .epoch) (h : d.create = .ok r) :
    ∃ row, Row.ofRecord r = .ok row := by
  obtain ⟨p, hp⟩ := exists_position hkind d
  apply Row.exists_ofRecord_iff.2
  apply Ordinal.exists_toSigned_iff.1
  exact Ordinal.exists_toSigned_of_ofPosition (ofPosition_of_create hp h)

/--
A record of every kind but the epochs is made exactly at the positions whose components keep to their bits. It fits a
row then, also after it has been stored in memory, and its ordinal compares as its position does. An epoch is always
made, and fits a row exactly if its number is a signed one.
-/
theorem create_fits_row :
    (∀ kind : RecordKind, kind ≠ .epoch →
      (∀ d : Draft kind, ∃ p, d.position? = some p ∧ ((∃ r, d.create = .ok r) ↔ p.Packable)) ∧
      (∀ (d : Draft kind) (r : kind.Entry), d.create = .ok r →
        (Record.ordinal r).value.toNat ≤ Nat.pow 2 63 - 1 ∧ ∃ row, Row.ofRecord r = .ok row) ∧
      (∀ records : List kind.Entry, (∀ r ∈ records, ∃ d : Draft kind, d.create = .ok r) →
        (performAll (MemoryStore.empty : MemoryStore kind.Entry) (records.map .upsert)).2.FitsTable) ∧
      ∀ (d e : Draft kind) (p q : ChainPosition) (r s : kind.Entry), d.position? = some p → e.position? = some q →
        d.create = .ok r → e.create = .ok s →
        (Record.ordinal r < Record.ordinal s ↔ p < q) ∧ (Record.ordinal r = Record.ordinal s ↔ p = q)) ∧
    ∀ (id : UInt64) (endTime : Timestamp) (supply reward fee : Amount),
      ∃ r : Epoch, (epoch id endTime supply reward fee).create = .ok r ∧ r.ordinal = ⟨id⟩ ∧
        ((∃ row, Row.ofRecord r = .ok row) ↔ id.toNat ≤ Nat.pow 2 63 - 1) ∧
        (¬id.toNat ≤ Nat.pow 2 63 - 1 →
          (Row.ofRecord r).mapError OrdinalFault.toError = .error (.ordinalOverflow s!"{id} exceeds i64")) := by
  constructor
  · intro kind hkind
    refine ⟨?_, ?_, ?_, ?_⟩
    · intro d
      obtain ⟨p, hp⟩ := exists_position hkind d
      exact ⟨p, hp, exists_create_iff hp⟩
    · intro d r h
      have hrow := exists_ofRecord_of_create hkind h
      exact ⟨Row.exists_ofRecord_iff.1 hrow, hrow⟩
    · intro records hrecords
      apply MemoryStore.FitsTable.empty.performAll
      intro r hr
      obtain ⟨d, hd⟩ := hrecords r hr
      exact exists_ofRecord_of_create hkind hd
    · intro d e p q r s hp hq hr hs
      have hpr := ofPosition_of_create hp hr
      have hqs := ofPosition_of_create hq hs
      exact ⟨Ordinal.lt_iff_of_ofPosition hpr hqs, Ordinal.eq_iff_of_ofPosition hpr hqs⟩
  · intro id endTime supply reward fee
    refine ⟨Epoch.create id endTime supply reward fee, rfl, rfl, Row.exists_ofRecord_iff, ?_⟩
    intro hid
    rw [Row.ofRecord_of_lt]
    · rfl
    · rw [← Int.not_le, Ordinal.toNat_le_maxValue_iff]
      intro hlt
      exact hid (Nat.le_sub_one_of_lt hlt)

def yearEnd : Timestamp :=
  ⟨⟨2023, 12, 31⟩, ⟨23, 59, 59, 0⟩, by decide, by decide⟩

def lastContract (logIndex : UInt32) : Draft .contract :=
  contract ⟨.zero⟩ ⟨.zero⟩ ⟨549755813887, 16383, logIndex⟩ yearEnd

def sealedEpoch (id : UInt64) : Draft .epoch :=
  epoch id yearEnd .zero .zero .zero

theorem create_fits_row_last_contract :
    (∃ r s : Contract, (lastContract 1022).create = .ok r ∧ (lastContract 1023).create = .ok s ∧
      r.ordinal < s.ordinal ∧ (∃ row, Row.ofRecord s = .ok row) ∧
      (performAll (MemoryStore.empty : MemoryStore Contract) ([s, r].map .upsert)).2.FitsTable) ∧
    ∃ r : Epoch, (sealedEpoch 9223372036854775808).create = .ok r ∧
      (Row.ofRecord r).mapError OrdinalFault.toError = .error (.ordinalOverflow "9223372036854775808 exceeds i64") := by
  obtain ⟨hchain, hepoch⟩ := create_fits_row
  constructor
  · obtain ⟨_, hrow, hstored, horder⟩ := hchain .contract (by decide)
    have hr : (lastContract 1022).create = .ok _ := rfl
    have hs : (lastContract 1023).create = .ok _ := rfl
    refine ⟨_, _, hr, hs, ?_, (hrow _ _ hs).2, ?_⟩
    · apply (horder _ _ _ _ _ _ rfl rfl hr hs).1.2
      exact .inr ⟨rfl, .inr ⟨rfl, by decide⟩⟩
    · apply hstored
      intro x hx
      cases List.mem_cons.1 hx with
      | inl hxs => exact ⟨_, hxs ▸ hs⟩
      | inr hx => exact ⟨_, List.mem_singleton.1 hx ▸ hr⟩
  · obtain ⟨r, hr, _, _, hrefused⟩ := hepoch 9223372036854775808 yearEnd .zero .zero .zero
    exact ⟨r, hr, hrefused (by decide)⟩

theorem not_forall_create_fits_row :
    ¬∀ (kind : RecordKind) (d : Draft kind) (r : kind.Entry), d.create = .ok r →
      (Record.ordinal r).value.toNat ≤ Nat.pow 2 63 - 1 ∧ ∃ row, Row.ofRecord r = .ok row := by
  intro hall
  have hfits := (hall .epoch (sealedEpoch 9223372036854775808) _ rfl).1
  exact absurd hfits (by decide)

end Draft

end ChainIndex
