import ChainIndex.Cursor
import ChainIndex.Proofs.Outcomes
import ChainIndex.Proofs.Text.HexSpelling
import ChainIndex.Record.Entry

/-!
This module contains which tokens lead to a record of a kind. A token carries the name of its kind in front
of the first colon, so that tokens of two kinds never meet, and the key behind it.
-/

namespace ChainIndex

theorem Utf8.read?_eq_some_iff {bytes : List UInt8} {s : String} :
    Utf8.read? bytes = some s ↔ Utf8.bytes s = bytes := by
  constructor
  · intro h
    unfold read? String.fromUTF8? at h
    split at h
    · cases h
      rfl
    · cases h
  · intro h
    rw [← h]
    exact read?_bytes s

namespace Cursor

variable {κ : Type} [RecordKey κ] {kind : RecordKind}

theorem decode_eq_ok_iff {token : String} {c : Cursor κ} :
    decode kind token = .ok c ↔ ∃ payload raw, token.toList = kind.name.toList ++ ':' :: payload ∧
      payload.map Char.toLower = Hex.write (Utf8.bytes raw) ∧ RecordKey.decode raw = .ok c.key ∧
      c.kind = kind := by
  constructor
  · intro h
    unfold decode at h
    split at h
    · cases h
    · next named payload hsplit =>
      have happend := (Split.eq_append_of_first hsplit).1
      split at h
      · next hnamed =>
        obtain ⟨bytes, hbytes, h⟩ := bind_eq_ok_iff.1 h
        obtain ⟨raw, hraw, h⟩ := bind_eq_ok_iff.1 h
        obtain ⟨key, hkey, h⟩ := bind_eq_ok_iff.1 h
        cases h
        rw [mapError_eq_ok_iff, Hex.read_eq_ok_iff] at hbytes
        rw [elim_eq_ok_iff, Utf8.read?_eq_some_iff] at hraw
        rw [mapError_eq_ok_iff] at hkey
        refine ⟨payload, raw, ?_, ?_, hkey, rfl⟩
        · rw [happend, ← hnamed, String.toList_ofList]
        · rw [hbytes, hraw]
      · cases h
  · rintro ⟨payload, raw, htoken, hspelled, hkey, hkind⟩
    have hread := Hex.read_eq_ok_iff.2 hspelled
    have hraw := Utf8.read?_bytes raw
    rw [decode, htoken, Split.first_append kind.separator_not_mem_name]
    dsimp only
    rw [if_pos (String.ofList_toList)]
    apply bind_eq_ok_iff.2
    refine ⟨_, mapError_eq_ok_iff.2 hread, ?_⟩
    apply bind_eq_ok_iff.2
    refine ⟨_, elim_eq_ok_iff.2 hraw, ?_⟩
    apply bind_eq_ok_iff.2
    refine ⟨_, mapError_eq_ok_iff.2 hkey, ?_⟩
    rw [← hkind]
    rfl

theorem decode_encode_of_kind_ne (c : Cursor κ) {other : RecordKind} (h : c.kind ≠ other) {κ' : Type}
    [RecordKey κ'] : (decode other c.encode : Except CursorFault (Cursor κ')) =
      .error (.otherKind c.kind.name other) := by
  have hname : c.kind.name ≠ other.name := fun heq => h (RecordKind.name_inj heq)
  rw [decode, encode, String.toList_ofList, Split.first_append c.kind.separator_not_mem_name]
  dsimp only
  rw [String.ofList_toList, if_neg hname]

theorem kind_of_encode_eq {κ' : Type} [RecordKey κ'] {c : Cursor κ} {c' : Cursor κ'} (h : c.encode = c'.encode) :
    c.kind = c'.kind := by
  apply Decidable.byContradiction
  intro hne
  have hother : (decode c'.kind c.encode : Except CursorFault (Cursor κ')) = _ := decode_encode_of_kind_ne c hne
  rw [h, decode_encode] at hother
  cases hother

theorem encode_inj {c c' : Cursor κ} (h : c.encode = c'.encode) : c = c' := by
  have hkind := kind_of_encode_eq h
  have hdecode := decode_encode c
  rw [h, hkind, decode_encode] at hdecode
  exact (Except.ok.inj hdecode).symm

theorem eq_mk_of_decode {token : String} {c : Cursor κ} (h : decode kind token = .ok c) : c = ⟨kind, c.key⟩ := by
  obtain ⟨_, _, _, _, _, hkind⟩ := decode_eq_ok_iff.1 h
  rw [← hkind]

theorem decode_encode_of_decode {token : String} {c : Cursor κ} (h : decode kind token = .ok c) :
    decode kind c.encode = .ok c := by
  rw [eq_mk_of_decode h]
  exact decode_encode _

theorem decode_exact (kind : RecordKind) :
    (∀ key : kind.EntryKey, decode kind (encode ⟨kind, key⟩) = .ok ⟨kind, key⟩) ∧
    (∀ (other : RecordKind) (key : kind.EntryKey) (key' : other.EntryKey),
      encode ⟨kind, key⟩ = encode ⟨other, key'⟩ →
        (⟨kind, key⟩ : (kind : RecordKind) × kind.EntryKey) = ⟨other, key'⟩) ∧
    (∀ (other : RecordKind) (key : kind.EntryKey), kind ≠ other →
      (decode other (encode ⟨kind, key⟩) : Except CursorFault (Cursor other.EntryKey)).mapError
          CursorFault.toError =
        .error (.invalidCursor s!"cursor for `{kind.name}` used on a `{other.name}` listing")) ∧
    (∀ (token : String) (key : kind.EntryKey), decode kind token = .ok ⟨kind, key⟩ ↔
      ∃ payload raw, token.toList = kind.name.toList ++ ':' :: payload ∧ payload.length % 2 = 0 ∧
        (∀ c ∈ payload, c.toLower ∈ "0123456789abcdef".toList) ∧
        payload.map Char.toLower = Hex.write (Utf8.bytes raw) ∧ RecordKey.decode raw = .ok key) ∧
    (∀ token : String, (∃ key : kind.EntryKey, decode kind token = .ok ⟨kind, key⟩) ∨
      ∃ detail, (decode kind token : Except CursorFault (Cursor kind.EntryKey)).mapError CursorFault.toError =
        .error (.invalidCursor detail)) ∧
    (∀ (token : String) (c : Cursor kind.EntryKey), decode kind token = .ok c → decode kind c.encode = .ok c) := by
  refine ⟨?_, ?_, ?_, ?_, ?_, ?_⟩
  · intro key
    exact decode_encode _
  · intro other key key' h
    cases kind_of_encode_eq h
    cases encode_inj h
    rfl
  · intro other key hne
    rw [decode_encode_of_kind_ne _ hne]
    rfl
  · intro token key
    rw [decode_eq_ok_iff]
    constructor
    · rintro ⟨payload, raw, htoken, hspelled, hkey, _⟩
      refine ⟨payload, raw, htoken, Hex.even_of_spelled hspelled, ?_, hspelled, hkey⟩
      intro c hc
      exact Hex.mem_digits_of_spelled hspelled hc
    · rintro ⟨payload, raw, htoken, _, _, hspelled, hkey⟩
      exact ⟨payload, raw, htoken, hspelled, hkey, rfl⟩
  · intro token
    cases h : (decode kind token : Except CursorFault (Cursor kind.EntryKey)) with
    | error fault =>
      right
      exact ⟨fault.message, rfl⟩
    | ok c =>
      left
      exact ⟨c.key, congrArg Except.ok (eq_mk_of_decode h)⟩
  · intro token c h
    exact decode_encode_of_decode h

theorem decode_exact_signed_epoch :
    decode .epoch "epoch:2B35" = .ok (⟨.epoch, 5⟩ : Cursor UInt64) ∧
    (⟨.epoch, 5⟩ : Cursor UInt64).encode = "epoch:35" ∧
    (decode .burn "epoch:35" : Except CursorFault (Cursor UInt64)).mapError CursorFault.toError =
      .error (.invalidCursor "cursor for `epoch` used on a `burn` listing") := by
  obtain ⟨_, _, hother, haccepts, _⟩ := decode_exact .epoch
  have hencode : (⟨.epoch, 5⟩ : Cursor UInt64).encode = "epoch:35" := by decide +kernel
  refine ⟨?_, hencode, ?_⟩
  · have hspelled : ['2', 'B', '3', '5'].map Char.toLower = Hex.write (Utf8.bytes "+5") := by decide +kernel
    apply (haccepts _ _).2
    refine ⟨_, "+5", rfl, Hex.even_of_spelled hspelled, ?_, hspelled, rfl⟩
    intro c hc
    exact Hex.mem_digits_of_spelled hspelled hc
  · rw [← hencode]
    exact hother .burn _ (by decide)

end Cursor

end ChainIndex
