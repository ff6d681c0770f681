import ChainIndex.Text.Utf8

/-!
This module contains the proof that texts compare as their bytes do: the order of texts by characters is
the order of their UTF-8 forms by bytes.
-/

namespace ChainIndex

namespace Utf8

theorem bytes_eq_flatMap (s : String) : bytes s = s.toList.flatMap String.utf8EncodeChar := by
  unfold bytes
  rw [String.toUTF8_eq_toByteArray]
  rw [← String.utf8Encode_toList]
  simp [List.utf8Encode]

theorem cons_lt_cons_iff_toNat {a b : UInt8} {as bs : List UInt8} :
    a :: as < b :: bs ↔ a.toNat < b.toNat ∨ a.toNat = b.toNat ∧ as < bs := by
  rw [List.cons_lt_cons_iff]
  rw [UInt8.lt_iff_toNat_lt, UInt8.toNat_inj]

theorem encodeChar_append_lt {c d : Char} (h : c < d) (x y : List UInt8) :
    String.utf8EncodeChar c ++ x < String.utf8EncodeChar d ++ y := by
  have hcd : c.val.toNat < d.val.toNat := UInt32.lt_iff_toNat_lt.1 h
  have hd : d.val.toNat < 0x110000 := by
    have := d.valid
    simp only [UInt32.isValidChar, Nat.isValidChar] at this
    omega
  simp only [String.utf8EncodeChar]
  generalize c.val.toNat = v at *
  generalize d.val.toNat = w at *
  have digits : ∀ n, n / 4096 = n / 64 / 64 ∧ n / 262144 = n / 64 / 64 / 64 := by omega
  simp only [digits]
  -- One case for each pair of lengths; the longer of two forms has the greater first byte.
  repeat' split
  all_goals
    simp only [List.cons_append, cons_lt_cons_iff_toNat, UInt8.toNat_ofNat']
    omega

theorem flatMap_encodeChar_lt {l m : List Char} (h : l < m) :
    l.flatMap String.utf8EncodeChar < m.flatMap String.utf8EncodeChar := by
  induction h with
  | @nil c m =>
    rw [List.flatMap_nil, List.flatMap_cons]
    cases hc : String.utf8EncodeChar c with
    | nil => exact absurd hc String.utf8EncodeChar_ne_nil
    | cons b bs => apply List.nil_lt_cons
  | cons _ ih =>
    rw [List.flatMap_cons, List.flatMap_cons]
    apply List.append_left_lt ih
  | rel h =>
    rw [List.flatMap_cons, List.flatMap_cons]
    apply encodeChar_append_lt h

theorem bytes_lt_iff {s t : String} : bytes s < bytes t ↔ s < t := by
  rw [bytes_eq_flatMap, bytes_eq_flatMap]
  constructor
  · intro h
    by_cases hst : s = t
    · rw [hst] at h
      exact absurd h (List.lt_irrefl _)
    · apply Decidable.byContradiction
      intro hn
      have hts : t < s := String.not_le.1 fun hle => hst (String.le_antisymm hle hn)
      exact List.lt_asymm h (flatMap_encodeChar_lt hts)
  · apply flatMap_encodeChar_lt

end Utf8

end ChainIndex
