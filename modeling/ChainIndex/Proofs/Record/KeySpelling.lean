import ChainIndex.Error
import ChainIndex.Proofs.Outcomes
import ChainIndex.Proofs.Text.HexSpelling
import ChainIndex.Proofs.Text.NumeralSpelling
import ChainIndex.Record.Entry

/-!
This module contains the proof of which texts are keys. Every type of keys has one grammar for what is read and a
stricter one for what is written, and a text that is read leads to the key which its normalized form is the text of.
-/

namespace ChainIndex

inductive KeyShape where
  | bytes (width : Nat)
  | number (bound : Nat)
  | pair (width bound : Nat)

namespace KeyShape

/--
The texts that are read. Since no digit is a colon, the bytes of a pair end at the first colon of its text.
-/
inductive Reads : KeyShape → List Char → Prop where
  | bytes {width : Nat} {mark : Char} {digits : List Char} (hmark : mark = 'x' ∨ mark = 'X')
    (hlength : digits.length = 2 * width) (hdigits : ∀ c ∈ digits, c.toLower ∈ "0123456789abcdef".toList) :
    Reads (.bytes width) ('0' :: mark :: digits)
  | number {bound : Nat} {cs : List Char} (h : Numeral.Numeric bound cs) : Reads (.number bound) cs
  | pair {width bound : Nat} {bytes number : List Char} (hbytes : Reads (.bytes width) bytes)
    (hnumber : Reads (.number bound) number) : Reads (.pair width bound) (bytes ++ ':' :: number)

/--
The texts that are written: digits in lower case, no sign and no leading zeros.
-/
inductive Canonical : KeyShape → List Char → Prop where
  | bytes {width : Nat} {digits : List Char} (hlength : digits.length = 2 * width)
    (hdigits : ∀ c ∈ digits, c ∈ "0123456789abcdef".toList) : Canonical (.bytes width) ('0' :: 'x' :: digits)
  | number {bound : Nat} {cs : List Char} (h : Numeral.Canonical bound cs) : Canonical (.number bound) cs
  | pair {width bound : Nat} {bytes number : List Char} (hbytes : Canonical (.bytes width) bytes)
    (hnumber : Canonical (.number bound) number) : Canonical (.pair width bound) (bytes ++ ':' :: number)

def normalize : KeyShape → List Char → List Char
  | .bytes _, cs => cs.map Char.toLower
  | .number _, cs => Numeral.normalize cs
  | .pair _ _, cs =>
    (cs.takeWhile (· ≠ ':')).map Char.toLower ++ ':' :: Numeral.normalize (cs.dropWhile (· ≠ ':')).tail

structure Fits (shape : KeyShape) (κ : Type) [RecordKey κ] : Prop where
  decode_eq_ok_iff : ∀ {raw : String} {key : κ}, RecordKey.decode raw = .ok key ↔
    shape.Reads raw.toList ∧ (RecordKey.encode key).toList = shape.normalize raw.toList
  exists_decode : ∀ {raw : String}, shape.Reads raw.toList → ∃ key : κ, RecordKey.decode raw = .ok key
  canonical_encode : ∀ key : κ, shape.Canonical (RecordKey.encode key).toList

end KeyShape

namespace Bytes

variable {n : Nat} {what raw : String} {b : Bytes n} {cs digits : List Char}

theorem unmark_eq_some_iff : unmark cs = some digits ↔ ∃ mark, (mark = 'x' ∨ mark = 'X') ∧ cs = '0' :: mark :: digits := by
  unfold unmark
  split <;> simp_all

theorem ofHex_eq_ok_iff : ofHex n digits = .ok b ↔ digits.map Char.toLower = Hex.write b.toList := by
  constructor
  · intro h
    unfold ofHex at h
    split at h
    · next bytes hread =>
      cases h
      apply (Hex.readExactly_eq_ok_iff.1 hread).1
    · cases h
  · intro h
    have hread : Hex.readExactly n digits = .ok b.toList := Hex.readExactly_eq_ok_iff.2 ⟨h, b.length_toList⟩
    unfold ofHex
    split
    · next bytes hbytes =>
      rw [hread] at hbytes
      cases hbytes
      rfl
    · next fault hfault =>
      rw [hread] at hfault
      cases hfault

theorem read_eq_ok_iff : read n what raw = .ok b ↔ ∃ mark digits, (mark = 'x' ∨ mark = 'X') ∧
    raw.toList = '0' :: mark :: digits ∧ digits.map Char.toLower = Hex.write b.toList := by
  constructor
  · intro h
    unfold read at h
    split at h
    · cases h
    · next digits hunmark =>
      obtain ⟨mark, hmark, hraw⟩ := unmark_eq_some_iff.1 hunmark
      rw [mapError_eq_ok_iff, ofHex_eq_ok_iff] at h
      exact ⟨mark, digits, hmark, hraw, h⟩
  · rintro ⟨mark, digits, hmark, hraw, h⟩
    have hunmark : unmark raw.toList = some digits := unmark_eq_some_iff.2 ⟨mark, hmark, hraw⟩
    unfold read
    rw [hunmark]
    dsimp only
    rw [mapError_eq_ok_iff, ofHex_eq_ok_iff]
    apply h

theorem toLower_mark {mark : Char} (h : mark = 'x' ∨ mark = 'X') : mark.toLower = 'x' := by
  cases h with
  | inl hx =>
    rw [hx]
    rfl
  | inr hx =>
    rw [hx]
    rfl

theorem read_eq_ok_iff_normalize : read n what raw = .ok b ↔
    (KeyShape.bytes n).Reads raw.toList ∧ b.write = (KeyShape.bytes n).normalize raw.toList := by
  rw [read_eq_ok_iff]
  constructor
  · rintro ⟨mark, digits, hmark, hraw, h⟩
    have hlength := congrArg List.length h
    rw [List.length_map, Hex.length_write, b.length_toList] at hlength
    rw [hraw]
    refine ⟨.bytes hmark hlength fun c hc => Hex.mem_digits_of_spelled h hc, ?_⟩
    dsimp only [KeyShape.normalize]
    rw [List.map_cons, List.map_cons, toLower_mark hmark, h]
    rfl
  · generalize raw.toList = cs
    rintro ⟨hreads, h⟩
    cases hreads with
    | bytes hmark _ _ =>
      refine ⟨_, _, hmark, rfl, ?_⟩
      exact (List.cons.inj (List.cons.inj h).2).2.symm

theorem exists_read (what : String) (h : (KeyShape.bytes n).Reads raw.toList) :
    ∃ b : Bytes n, read n what raw = .ok b := by
  simp only [read_eq_ok_iff]
  revert h
  generalize raw.toList = cs
  intro h
  cases h with
  | bytes hmark hlength hdigits =>
    obtain ⟨bytes, hbytes, hspelled⟩ := Hex.exists_spelled hlength hdigits
    exact ⟨⟨bytes, hbytes⟩, _, _, hmark, rfl, hspelled⟩

theorem canonical_write (b : Bytes n) : (KeyShape.bytes n).Canonical b.write := by
  apply KeyShape.Canonical.bytes
  · rw [Hex.length_write, b.length_toList]
  · intro c hc
    apply Hex.mem_digits_of_mem_write hc

end Bytes

theorem TxHash.ofString_eq_ok_iff {raw : String} {hash : TxHash} :
    ofString raw = .ok hash ↔ Bytes.read 32 "transaction hash" raw = .ok hash.bytes :=
  map_eq_ok_iff_of_inverse (fun _ => rfl) fun _ => rfl

theorem Address.ofString_eq_ok_iff {raw : String} {address : Address} :
    ofString raw = .ok address ↔ Bytes.read 20 "address" raw = .ok address.bytes :=
  map_eq_ok_iff_of_inverse (fun _ => rfl) fun _ => rfl

theorem SwapKey.ofString_eq_ok_iff {raw : String} {key : SwapKey} :
    ofString raw = .ok key ↔ Bytes.read 32 "transaction hash" raw = .ok key.bytes := by
  unfold ofString
  cases Bytes.read 32 "transaction hash" raw with
  | error fault => simp
  | ok bytes =>
    cases key
    simp

theorem Split.append_inj {sep : Char} {a a' b b' : List Char} (ha : sep ∉ a) (ha' : sep ∉ a')
    (h : a ++ sep :: b = a' ++ sep :: b') : a = a' ∧ b = b' := by
  have hfirst := congrArg (Split.first sep) h
  rw [first_append ha, first_append ha'] at hfirst
  simpa using hfirst

namespace RecordKey

variable {what part raw : String} {n : UInt64}

theorem readId_eq_ok_iff {cs : List Char} :
    (Numeral.readNat maxId cs).map UInt64.ofNat = .ok n ↔ Numeral.readNat maxId cs = .ok n.toNat := by
  rw [map_eq_ok_iff]
  constructor
  · rintro ⟨m, hm, rfl⟩
    have hle := ((Numeral.readNat_eq_ok_iff_of_le (Nat.le_refl _)).1 hm).2
    rw [hm, UInt64.toNat_ofNat_of_lt' (Nat.lt_of_le_sub_one (by decide) hle)]
  · intro h
    exact ⟨_, h, UInt64.ofNat_toNat⟩

theorem readPart_eq_ok_iff : readPart what raw = .ok n ↔ Numeral.readNat maxId raw.toList = .ok n.toNat := by
  rw [readPart, mapError_eq_ok_iff, readId_eq_ok_iff]

theorem splitPair_eq_ok_iff {x y : String} :
    splitPair what raw = .ok (x, y) ↔ Split.first ':' raw.toList = some (x.toList, y.toList) := by
  unfold splitPair
  cases Split.first ':' raw.toList with
  | none => simp
  | some parts =>
    simp only [Except.ok.injEq, Option.some.injEq]
    constructor
    · intro h
      cases h
      simp
    · intro h
      cases h
      simp

theorem readAddressPair_eq_ok_iff {address : Address} :
    readAddressPair what part raw = .ok (address, n) ↔ ∃ x y : String,
      Split.first ':' raw.toList = some (x.toList, y.toList) ∧ Bytes.read 20 "address" x = .ok address.bytes ∧
        Numeral.readNat (UInt64.size - 1) y.toList = .ok n.toNat := by
  constructor
  · intro h
    obtain ⟨⟨x, y⟩, hsplit, h⟩ := bind_eq_ok_iff.1 h
    obtain ⟨address', haddress, h⟩ := bind_eq_ok_iff.1 h
    obtain ⟨n', hn, h⟩ := bind_eq_ok_iff.1 h
    cases h
    exact ⟨x, y, splitPair_eq_ok_iff.1 hsplit, Address.ofString_eq_ok_iff.1 haddress, readPart_eq_ok_iff.1 hn⟩
  · rintro ⟨x, y, hsplit, haddress, hn⟩
    apply bind_eq_ok_iff.2
    refine ⟨(x, y), splitPair_eq_ok_iff.2 hsplit, ?_⟩
    apply bind_eq_ok_iff.2
    refine ⟨address, Address.ofString_eq_ok_iff.2 haddress, ?_⟩
    apply bind_eq_ok_iff.2
    exact ⟨n, readPart_eq_ok_iff.2 hn, rfl⟩

end RecordKey

theorem LogKey.decode_eq_ok_iff {raw : String} {key : LogKey} :
    decode raw = .ok key ↔ ∃ x y : String, Split.first ':' raw.toList = some (x.toList, y.toList) ∧
      Bytes.read 32 "transaction hash" x = .ok key.txHash.bytes ∧
        Numeral.readNat (UInt32.size - 1) y.toList = .ok key.logIndex.toNat := by
  have hle : UInt32.size - 1 ≤ RecordKey.maxId := by decide
  simp only [Numeral.readNat_eq_ok_iff_of_le hle]
  constructor
  · intro h
    obtain ⟨⟨x, y⟩, hsplit, h⟩ := bind_eq_ok_iff.1 h
    obtain ⟨n, hn, h⟩ := bind_eq_ok_iff.1 h
    split at h
    · next hlt =>
      obtain ⟨hash, hhash, h⟩ := bind_eq_ok_iff.1 h
      cases h
      have hindex : n.toUInt32.toNat = n.toNat := by
        rw [UInt64.toNat_toUInt32]
        apply Nat.mod_eq_of_lt hlt
      refine ⟨x, y, RecordKey.splitPair_eq_ok_iff.1 hsplit, TxHash.ofString_eq_ok_iff.1 hhash, ?_⟩
      rw [hindex]
      exact ⟨RecordKey.readPart_eq_ok_iff.1 hn, Nat.le_sub_one_of_lt hlt⟩
    · cases h
  · rintro ⟨x, y, hsplit, hhash, hn, hle⟩
    have hindex : key.logIndex.toUInt64.toNat = key.logIndex.toNat := UInt32.toNat_toUInt64 _
    rw [← hindex] at hn
    apply bind_eq_ok_iff.2
    refine ⟨(x, y), RecordKey.splitPair_eq_ok_iff.2 hsplit, ?_⟩
    apply bind_eq_ok_iff.2
    refine ⟨_, RecordKey.readPart_eq_ok_iff.2 hn, ?_⟩
    rw [if_pos (hindex ▸ key.logIndex.toNat_lt)]
    apply bind_eq_ok_iff.2
    refine ⟨_, TxHash.ofString_eq_ok_iff.2 hhash, ?_⟩
    rw [UInt32.toUInt32_toUInt64]
    rfl

namespace KeyShape

variable {κ : Type} [RecordKey κ] {n bound : Nat} {cs : List Char}

theorem separator_not_mem (h : (bytes n).Reads cs) : ':' ∉ cs := by
  intro hmem
  cases h with
  | @bytes _ mark digits hmark _ hdigits =>
    rw [List.mem_cons, List.mem_cons] at hmem
    rcases hmem with hmem | hmem | hmem
    · exact absurd hmem (by decide)
    · subst hmem
      exact absurd hmark (by decide)
    · exact absurd (hdigits _ hmem) (by decide)

theorem separator_not_mem_normalize (h : (bytes n).Reads cs) : ':' ∉ (bytes n).normalize cs := by
  rw [← String.toList_ofList (l := cs)] at h ⊢
  obtain ⟨b, hb⟩ := Bytes.exists_read "" h
  rw [← (Bytes.read_eq_ok_iff_normalize.1 hb).2]
  apply b.separator_not_mem_write

theorem normalize_pair (h : ':' ∉ cs) (number : List Char) :
    (pair n bound).normalize (cs ++ ':' :: number) =
      (bytes n).normalize cs ++ ':' :: Numeral.normalize number := by
  have hall : ∀ c ∈ cs, decide (c ≠ ':') = true := by
    intro c hc
    apply decide_eq_true
    rintro rfl
    exact h hc
  dsimp only [normalize]
  rw [List.takeWhile_append_of_pos hall, List.dropWhile_append_of_pos hall]
  simp

theorem exists_of_reads_pair (h : (pair n bound).Reads cs) : ∃ x y : String, cs = x.toList ++ ':' :: y.toList ∧
    (bytes n).Reads x.toList ∧ Numeral.Numeric bound y.toList := by
  cases h with
  | @pair _ _ a b ha hb =>
    cases hb with
    | number hb =>
      refine ⟨String.ofList a, String.ofList b, ?_⟩
      simp only [String.toList_ofList]
      exact ⟨trivial, ha, hb⟩

namespace Fits

theorem of_bytes {what : String} (bytes : κ → Bytes n) (hbytes : ∀ b, ∃ key, bytes key = b)
    (hencode : ∀ key, RecordKey.encode key = (bytes key).toString)
    (hdecode : ∀ raw key, RecordKey.decode raw = .ok key ↔ Bytes.read n what raw = .ok (bytes key)) :
    (KeyShape.bytes n).Fits κ where
  decode_eq_ok_iff := by
    intro raw key
    rw [hdecode, Bytes.read_eq_ok_iff_normalize, hencode, Bytes.toString, String.toList_ofList]
  exists_decode := by
    intro raw h
    obtain ⟨b, hb⟩ := Bytes.exists_read what h
    obtain ⟨key, rfl⟩ := hbytes b
    exact ⟨key, (hdecode raw key).2 hb⟩
  canonical_encode := by
    intro key
    rw [hencode, Bytes.toString, String.toList_ofList]
    apply Bytes.canonical_write

theorem of_pair {what : String} (bytes : κ → Bytes n) (number : κ → Nat) (hpos : bound - 1 + 1 = bound)
    (hbound : ∀ key, number key < bound) (hkey : ∀ b m, m < bound → ∃ key, bytes key = b ∧ number key = m)
    (hencode : ∀ key, RecordKey.encode key = RecordKey.encodePair (bytes key) (number key))
    (hdecode : ∀ raw key, RecordKey.decode raw = .ok key ↔ ∃ x y : String,
      Split.first ':' raw.toList = some (x.toList, y.toList) ∧ Bytes.read n what x = .ok (bytes key) ∧
        Numeral.readNat (bound - 1) y.toList = .ok (number key)) :
    (KeyShape.pair n bound).Fits κ where
  decode_eq_ok_iff := by
    intro raw key
    simp only [hdecode, hencode, RecordKey.encodePair, Bytes.read_eq_ok_iff_normalize, Numeral.readNat_eq_ok_iff, hpos,
      String.toList_ofList]
    constructor
    · rintro ⟨x, y, hsplit, ⟨hx, hbytes⟩, hy, hnumber⟩
      obtain ⟨hraw, hnot⟩ := Split.eq_append_of_first hsplit
      rw [hraw, normalize_pair hnot, hbytes, hnumber]
      exact ⟨.pair hx (.number hy), rfl⟩
    · rintro ⟨hreads, h⟩
      obtain ⟨x, y, hraw, hx, hy⟩ := exists_of_reads_pair hreads
      rw [hraw, normalize_pair (separator_not_mem hx)] at h
      obtain ⟨hbytes, hnumber⟩ := Split.append_inj (bytes key).separator_not_mem_write (separator_not_mem_normalize hx) h
      rw [hraw]
      exact ⟨x, y, Split.first_append (separator_not_mem hx) _, ⟨hx, hbytes⟩, hy, hnumber⟩
  exists_decode := by
    intro raw h
    simp only [hdecode]
    obtain ⟨x, y, hraw, hx, hy⟩ := exists_of_reads_pair h
    rw [← hpos] at hy
    obtain ⟨b, hb⟩ := Bytes.exists_read what hx
    obtain ⟨m, hle, hm⟩ := Numeral.exists_readNat hy
    obtain ⟨key, rfl, rfl⟩ := hkey b m (by omega)
    rw [hraw]
    exact ⟨key, x, y, Split.first_append (separator_not_mem hx) _, hb, hm⟩
  canonical_encode := by
    intro key
    rw [hencode, RecordKey.encodePair, String.toList_ofList]
    exact .pair (bytes key).canonical_write (.number (Numeral.canonical_write (hbound key)))

theorem txHash : (KeyShape.bytes 32).Fits TxHash := by
  apply of_bytes TxHash.bytes
  · intro b
    exact ⟨⟨b⟩, rfl⟩
  · intro key
    rfl
  · intro raw key
    apply TxHash.ofString_eq_ok_iff

theorem address : (KeyShape.bytes 20).Fits Address := by
  apply of_bytes Address.bytes
  · intro b
    exact ⟨⟨b⟩, rfl⟩
  · intro key
    rfl
  · intro raw key
    apply Address.ofString_eq_ok_iff

theorem swapKey : (KeyShape.bytes 32).Fits SwapKey := by
  apply of_bytes SwapKey.bytes
  · intro b
    exact ⟨⟨b⟩, rfl⟩
  · intro key
    rfl
  · intro raw key
    apply SwapKey.ofString_eq_ok_iff

theorem id : (KeyShape.number UInt64.size).Fits UInt64 where
  decode_eq_ok_iff := by
    intro raw key
    dsimp only [RecordKey.decode, RecordKey.encode, KeyShape.normalize]
    rw [mapError_eq_ok_iff, RecordKey.readId_eq_ok_iff, Numeral.readNat_eq_ok_iff, String.toList_ofList]
    apply and_congr_left
    intro _
    constructor
    · apply KeyShape.Reads.number
    · intro h
      cases h with
      | number h => apply h
  exists_decode := by
    intro raw h
    have hnumeric : Numeral.Numeric (RecordKey.maxId + 1) raw.toList := by
      cases h with
      | number h => apply h
    obtain ⟨m, hle, hm⟩ := Numeral.exists_readNat hnumeric
    refine ⟨UInt64.ofNat m, ?_⟩
    dsimp only [RecordKey.decode]
    rw [mapError_eq_ok_iff, hm]
    rfl
  canonical_encode := by
    intro key
    dsimp only [RecordKey.encode]
    rw [String.toList_ofList]
    apply KeyShape.Canonical.number
    apply Numeral.canonical_write key.toNat_lt

theorem logKey : (KeyShape.pair 32 UInt32.size).Fits LogKey := by
  apply of_pair (fun key => key.txHash.bytes) (fun key => key.logIndex.toNat)
  · rfl
  · intro key
    exact key.logIndex.toNat_lt
  · intro b m hm
    exact ⟨⟨⟨b⟩, UInt32.ofNat m⟩, rfl, UInt32.toNat_ofNat_of_lt' hm⟩
  · intro key
    rfl
  · intro raw key
    apply LogKey.decode_eq_ok_iff

theorem of_address_pair {what part : String} (join : Address × UInt64 → κ) (split : κ → Address × UInt64)
    (hsplit : ∀ p, split (join p) = p) (hjoin : ∀ key, join (split key) = key)
    (hencode : ∀ key, RecordKey.encode key = RecordKey.encodePair (split key).1.bytes (split key).2.toNat)
    (hdecode : ∀ raw, (RecordKey.decode raw : Except KeyFault κ) = (RecordKey.readAddressPair what part raw).map join) :
    (KeyShape.pair 20 UInt64.size).Fits κ := by
  apply of_pair (fun key => (split key).1.bytes) (fun key => (split key).2.toNat)
  · rfl
  · intro key
    exact (split key).2.toNat_lt
  · intro b m hm
    refine ⟨join (⟨b⟩, UInt64.ofNat m), ?_⟩
    rw [hsplit]
    exact ⟨rfl, UInt64.toNat_ofNat_of_lt' hm⟩
  · apply hencode
  · intro raw key
    rw [hdecode, map_eq_ok_iff_of_inverse hsplit hjoin]
    apply RecordKey.readAddressPair_eq_ok_iff

theorem delegationKey : (KeyShape.pair 20 UInt64.size).Fits DelegationKey := by
  apply of_address_pair (fun p => ⟨p.1, p.2⟩) fun key => (key.delegator, key.validatorId)
  all_goals
    intro
    rfl

theorem withdrawRequestKey : (KeyShape.pair 20 UInt64.size).Fits WithdrawRequestKey := by
  apply of_address_pair (fun p => ⟨p.1, p.2⟩) fun key => (key.owner, key.requestId)
  all_goals
    intro
    rfl

end Fits

theorem Canonical.reads {shape : KeyShape} (h : shape.Canonical cs) : shape.Reads cs := by
  induction h with
  | bytes hlength hdigits =>
    apply Reads.bytes (.inl rfl) hlength
    intro c hc
    rw [Hex.toLower_of_mem_digits (hdigits c hc)]
    apply hdigits c hc
  | number h => exact .number (.unsigned h.toDigits)
  | pair _ _ hbytes hnumber => exact .pair hbytes hnumber

theorem Canonical.normalize_eq {shape : KeyShape} (h : shape.Canonical cs) : shape.normalize cs = cs := by
  induction h with
  | @bytes _ digits _ hdigits =>
    have hsame : digits.map Char.toLower = digits := by
      rw [List.map_congr_left fun c hc => Hex.toLower_of_mem_digits (hdigits c hc)]
      rw [List.map_id']
    dsimp only [normalize]
    rw [List.map_cons, List.map_cons, hsame]
    rfl
  | number h => apply h.normalize_eq
  | @pair _ _ _ number hbytes _ ihbytes ihnumber =>
    have hsame : Numeral.normalize number = number := ihnumber
    rw [normalize_pair (separator_not_mem hbytes.reads), ihbytes, hsame]

theorem Fits.eq_encode_iff {shape : KeyShape} (h : shape.Fits κ) {raw : String} {key : κ} :
    RecordKey.decode raw = .ok key ∧ shape.Canonical raw.toList ↔ raw = RecordKey.encode key := by
  constructor
  · rintro ⟨hdecode, hcanonical⟩
    have hencode := (h.decode_eq_ok_iff.1 hdecode).2
    rw [hcanonical.normalize_eq] at hencode
    exact (String.toList_injective hencode).symm
  · rintro rfl
    exact ⟨RecordKey.decode_encode key, h.canonical_encode key⟩

end KeyShape

namespace RecordKind

def keyShape : RecordKind → KeyShape
  | transaction | swap => .bytes 32
  | contract => .bytes 20
  | epoch | burn => .number UInt64.size
  | rewardClaim | tokenTransaction => .pair 32 UInt32.size
  | delegation | withdrawRequest => .pair 20 UInt64.size

theorem fits_keyShape (kind : RecordKind) : kind.keyShape.Fits kind.EntryKey := by
  cases kind with
  | transaction => apply KeyShape.Fits.txHash
  | delegation => apply KeyShape.Fits.delegationKey
  | rewardClaim | tokenTransaction => apply KeyShape.Fits.logKey
  | withdrawRequest => apply KeyShape.Fits.withdrawRequestKey
  | epoch | burn => apply KeyShape.Fits.id
  | contract => apply KeyShape.Fits.address
  | swap => apply KeyShape.Fits.swapKey

/--
A text is a key exactly if it follows the grammar of its type, and whatever else is an invalid key. The text that a key
is written as is the only canonical one that leads to it, and every other one that does is normalized to it.
-/
theorem keys_exact (kind : RecordKind) :
    (∀ raw, (∃ key : kind.EntryKey, RecordKey.decode raw = .ok key) ↔ kind.keyShape.Reads raw.toList) ∧
    (∀ raw, (∃ key : kind.EntryKey, RecordKey.decode raw = .ok key) ∨
      ∃ detail, (RecordKey.decode raw : Except KeyFault kind.EntryKey).mapError KeyFault.toError =
        .error (.invalidKey detail)) ∧
    (∀ key : kind.EntryKey, RecordKey.decode (RecordKey.encode key) = .ok key) ∧
    (∀ key key' : kind.EntryKey, RecordKey.encode key = RecordKey.encode key' → key = key') ∧
    (∀ (raw : String) (key : kind.EntryKey),
      RecordKey.decode raw = .ok key ∧ kind.keyShape.Canonical raw.toList ↔ raw = RecordKey.encode key) ∧
    ∀ (raw : String) (key : kind.EntryKey), RecordKey.decode raw = .ok key →
      (RecordKey.encode key).toList = kind.keyShape.normalize raw.toList ∧
        RecordKey.decode (String.ofList (kind.keyShape.normalize raw.toList)) = .ok key := by
  have hfits := kind.fits_keyShape
  refine ⟨?_, ?_, ?_, ?_, ?_, ?_⟩
  · intro raw
    constructor
    · rintro ⟨key, hkey⟩
      exact (hfits.decode_eq_ok_iff.1 hkey).1
    · apply hfits.exists_decode
  · intro raw
    cases h : (RecordKey.decode raw : Except KeyFault kind.EntryKey) with
    | ok key => exact .inl ⟨key, rfl⟩
    | error fault => exact .inr ⟨fault.message, rfl⟩
  · apply RecordKey.decode_encode
  · intro key key'
    apply RecordKey.encode_inj
  · intro raw key
    apply hfits.eq_encode_iff
  · intro raw key hkey
    have hencode := (hfits.decode_eq_ok_iff.1 hkey).2
    rw [← hencode, String.ofList_toList]
    exact ⟨rfl, RecordKey.decode_encode key⟩

def mixedCaseKey : DelegationKey :=
  ⟨⟨⟨List.replicate 19 0xab ++ [7], by decide⟩⟩, 17⟩

theorem keys_exact_mixed_case :
    (RecordKey.decode "0XABabABabABabABabABabABabABabABabABabAB07:+0017" : Except KeyFault DelegationKey) =
      .ok mixedCaseKey ∧
    RecordKey.encode mixedCaseKey = "0xababababababababababababababababababab07:17" := by
  obtain ⟨_, _, _, _, _, hnormalized⟩ := keys_exact .delegation
  have hdecode : (RecordKey.decode "0XABabABabABabABabABabABabABabABabABabAB07:+0017" : Except KeyFault DelegationKey) =
      .ok mixedCaseKey := by rfl
  refine ⟨hdecode, ?_⟩
  apply String.toList_injective
  rw [(hnormalized _ _ hdecode).1]
  decide +kernel

end RecordKind

end ChainIndex
