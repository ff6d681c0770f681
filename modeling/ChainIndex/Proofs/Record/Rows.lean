import ChainIndex.Proofs.Chain.Packing
import ChainIndex.Proofs.Record.FieldOrder
import ChainIndex.Record.Row

/-!
This module contains the proof that records survive being stored as rows. The ordinal of a record stands in
its row twice, in a column and in the payload, and the column is the one that counts.
-/

namespace ChainIndex

namespace Row

variable {ρ κ : Type} [RecordKey κ] [Record ρ κ]

theorem ofRecord_of_le {r : ρ} (h : (Record.ordinal r).value.toNat ≤ Int64.maxValue.toInt) :
    ofRecord r = .ok ⟨Record.kind ρ, RecordKey.encode (Record.key r), (Record.ordinal r).value.toInt64,
      Record.toJson r⟩ := by
  rw [ofRecord, Ordinal.toSigned_of_le h]
  rfl

theorem ofRecord_of_lt {r : ρ} (h : Int64.maxValue.toInt < (Record.ordinal r).value.toNat) :
    ofRecord r = .error (.exceedsSigned (Record.ordinal r)) := by
  rw [ofRecord, Ordinal.toSigned_of_lt h]
  rfl

omit [RecordKey κ] in
theorem toRecord_of_ofJson {row : Row} {r : ρ} (h : Record.ofJson row.payload = .ok r)
    (hn : 0 ≤ row.ordinal.toInt) : row.toRecord ρ = .ok (Record.setOrdinal ⟨row.ordinal.toUInt64⟩ r) := by
  rw [toRecord, h, Ordinal.ofSigned_of_nonneg hn]
  rfl

omit [RecordKey κ] in
theorem toRecord_of_ordinal_eq {row : Row} {r : ρ} (hle : (Record.ordinal r).value.toNat ≤ Int64.maxValue.toInt)
    (hordinal : row.ordinal = (Record.ordinal r).value.toInt64) (h : Record.ofJson row.payload = .ok r) :
    row.toRecord ρ = .ok r := by
  have hnonneg : 0 ≤ row.ordinal.toInt := by
    rw [hordinal, Ordinal.toInt_toInt64 hle]
    omega
  rw [toRecord_of_ofJson h hnonneg, hordinal, UInt64.toUInt64_toInt64, Record.setOrdinal_ordinal]

end Row

def Json.entries : Json → List (String × Json)
  | .object fields => fields
  | _ => []

theorem exists_toJson_setOrdinal {kind : RecordKind} (r : kind.Entry) :
    ∃ values : List (String × Json), ("ordinal_index" :: values.map Prod.fst).Nodup ∧
      ∀ o, Record.toJson (Record.setOrdinal o r) = .object (values ++ [("ordinal_index", o.toJson)]) := by
  refine ⟨(Record.toJson r).entries.dropLast, ?_, ?_⟩
  · cases kind <;> simp [Json.entries, Record.toJson, Transaction.toJson, Delegation.toJson, RewardClaim.toJson,
      WithdrawRequest.toJson, Epoch.toJson, Contract.toJson, TokenTransaction.toJson, SwapState.toJson,
      BurnEntry.toJson]
  · intro o
    cases kind <;> rfl

theorem field?_setOrdinal {kind : RecordKind} (o : Ordinal) (r : kind.Entry) {name : String}
    (h : name ≠ "ordinal_index") :
    (Record.toJson (Record.setOrdinal o r)).field? name = (Record.toJson r).field? name := by
  have hbeq : (name == "ordinal_index") = false := beq_false_of_ne h
  obtain ⟨values, _, hvalues⟩ := exists_toJson_setOrdinal r
  have hr := hvalues (Record.ordinal r)
  rw [Record.setOrdinal_ordinal] at hr
  rw [hvalues o, hr]
  unfold Json.field?
  dsimp only
  rw [List.lookup_append, List.lookup_append, List.lookup_cons, List.lookup_cons, hbeq]

theorem exists_toJson {kind : RecordKind} (r : kind.Entry) :
    ∃ values, Record.toJson r = .object values ∧ (values.map Prod.fst).Nodup := by
  obtain ⟨values, hn, hvalues⟩ := exists_toJson_setOrdinal r
  have hr := hvalues (Record.ordinal r)
  rw [Record.setOrdinal_ordinal] at hr
  refine ⟨_, hr, ?_⟩
  rw [List.map_append]
  exact (List.perm_append_singleton _ _).nodup_iff.2 hn

namespace Row

/--
A record that fits a row is read back from it, and so it is if the table keeps the fields of the payload in an
order of its own.
-/
theorem row_exact (kind : RecordKind) (r : kind.Entry) :
    ((Record.ordinal r).value.toNat ≤ Int64.maxValue.toInt →
      ∃ row values, ofRecord r = .ok row ∧ row.kind = kind ∧ row.key = RecordKey.encode (Record.key r) ∧
        row.ordinal.toInt = (Record.ordinal r).value.toNat ∧ row.payload = .object values ∧
        row.toRecord kind.Entry = .ok r ∧
        ∀ values', values.Perm values' →
          ({ row with payload := .object values' } : Row).toRecord kind.Entry = .ok r) ∧
    (Int64.maxValue.toInt < (Record.ordinal r).value.toNat →
      (ofRecord r).mapError OrdinalFault.toError =
        .error (.ordinalOverflow s!"{(Record.ordinal r).value} exceeds i64")) ∧
    (∀ row : Row, Record.ofJson row.payload = .ok r → 0 ≤ row.ordinal.toInt →
      ∃ x : kind.Entry, row.toRecord kind.Entry = .ok x ∧
        ((Record.ordinal x).value.toNat : Int) = row.ordinal.toInt ∧
        Record.setOrdinal (Record.ordinal r) x = r ∧ Record.key x = Record.key r ∧
        ∀ name, name ≠ "ordinal_index" → (Record.toJson x).field? name = (Record.toJson r).field? name) := by
  refine ⟨?_, ?_, ?_⟩
  · intro hle
    obtain ⟨values, hvalues, hn⟩ := exists_toJson r
    have hr := Record.ofJson_toJson r
    refine ⟨_, values, ofRecord_of_le hle, kind.kind_entry, rfl, Ordinal.toInt_toInt64 hle, hvalues,
      toRecord_of_ordinal_eq hle rfl hr, ?_⟩
    intro values' hperm
    rw [hvalues] at hr
    exact toRecord_of_ordinal_eq hle rfl (ofJson_perm hr hperm hn)
  · intro hlt
    rw [ofRecord_of_lt hlt]
    rfl
  · intro row hpayload hnonneg
    refine ⟨_, toRecord_of_ofJson hpayload hnonneg, ?_, ?_, Record.key_setOrdinal _ r, ?_⟩
    · rw [Record.ordinal_setOrdinal]
      exact Ordinal.toNat_toUInt64 hnonneg
    · rw [Record.setOrdinal_setOrdinal, Record.setOrdinal_ordinal]
    · intro name hname
      exact field?_setOrdinal _ r hname

def pendingRequest (ordinal : UInt64) : WithdrawRequest where
  owner := ⟨.zero⟩
  requestId := 18446744073709551615
  validatorId := 1
  amount := .saturate 340282366920938463463374607431768211455
  requestTx := ⟨.zero⟩
  blockNumber := 18446744073709551615
  requestedAt := ⟨⟨2024, 2, 29⟩, ⟨23, 59, 60, 1⟩, by decide, by decide⟩
  withdrawnAt := none
  ordinal := ⟨ordinal⟩

theorem row_exact_pending_request :
    (∃ row, ofRecord (pendingRequest 9223372036854775807) = .ok row ∧
      row.toRecord WithdrawRequest = .ok (pendingRequest 9223372036854775807)) ∧
    (ofRecord (pendingRequest 9223372036854775808)).mapError OrdinalFault.toError =
      .error (.ordinalOverflow "9223372036854775808 exceeds i64") ∧
    ∃ x : WithdrawRequest,
      (⟨.withdrawRequest, "", 7, (pendingRequest 5).toJson⟩ : Row).toRecord WithdrawRequest = .ok x ∧
        (x.ordinal.value.toNat : Int) = 7 ∧ x.toJson.field? "withdrawn_at" = some .null := by
  refine ⟨?_, ?_, ?_⟩
  · have hstored := (row_exact .withdrawRequest (pendingRequest 9223372036854775807)).1
    obtain ⟨row, _, hrow, _, _, _, _, hr, _⟩ := hstored (by decide)
    exact ⟨row, hrow, hr⟩
  · exact (row_exact .withdrawRequest (pendingRequest 9223372036854775808)).2.1 (by decide)
  · have hread := (row_exact .withdrawRequest (pendingRequest 5)).2.2
    obtain ⟨x, hx, hordinal, _, _, hfields⟩ := hread ⟨.withdrawRequest, "", 7, (pendingRequest 5).toJson⟩
      (Record.ofJson_toJson _) (by decide)
    exact ⟨x, hx, hordinal, hfields "withdrawn_at" (by decide)⟩

end Row

end ChainIndex
