import ChainIndex.Proofs.Outcomes
import ChainIndex.Text.Hex

/-!
This module contains the proof of which texts are read as hexadecimal digits, and as which bytes: a text is
read if in lower case it is the text that its bytes are written as.
-/

namespace ChainIndex

namespace Hex

theorem of_ascii {P : Char → Prop} (h : ∀ n < 128, P (Char.ofNat n)) {c : Char} (hc : c.toNat < 128) : P c := by
  have hp := h c.toNat hc
  rwa [Char.ofNat_toNat] at hp

theorem digit?_toLower (c : Char) : digit? c.toLower = digit? c := by
  by_cases hlt : c.toNat < 128
  · apply of_ascii _ hlt
    decide +kernel
  · have hother : ¬(c.val ≥ 'A'.val ∧ c.val ≤ 'Z'.val) := by
      rintro ⟨_, hle⟩
      apply hlt
      exact Nat.lt_of_le_of_lt hle (by decide)
    have hsame : c.toLower = c := dif_neg hother
    rw [hsame]

theorem digitChar_of_digit? {c : Char} {d : Nat} (h : digit? c = some d) : d < 16 ∧ c.toLower = d.digitChar := by
  have hlt : c.toNat < 128 := Nat.lt_succ_of_le (Char.utf8Size_eq_one_iff.1 (utf8Size_of_digit? h))
  have hall : (digit? c).all fun d => d < 16 ∧ c.toLower = d.digitChar := by
    apply of_ascii _ hlt
    decide +kernel
  rw [h, Option.all_some, decide_eq_true_eq] at hall
  exact hall

theorem digit?_eq_some_iff {c : Char} {d : Nat} : digit? c = some d ↔ d < 16 ∧ c.toLower = d.digitChar := by
  constructor
  · exact digitChar_of_digit?
  · rintro ⟨hd, hc⟩
    rw [← digit?_toLower, hc]
    exact digit?_digitChar hd

theorem readDigit_eq_ok_iff {position : Nat} {c : Char} {d : Nat} :
    readDigit position c = .ok d ↔ d < 16 ∧ c.toLower = d.digitChar := by
  rw [← digit?_eq_some_iff]
  constructor
  · exact readDigit_eq_ok
  · intro h
    rw [readDigit, h]

theorem length_write (bytes : List UInt8) : (write bytes).length = 2 * bytes.length := by
  induction bytes with
  | nil => rfl
  | cons b rest ih =>
    rw [write_cons, List.length_cons, List.length_cons, List.length_cons, ih]
    omega

theorem mem_digits_of_mem_write {bytes : List UInt8} {c : Char} (h : c ∈ write bytes) :
    c ∈ "0123456789abcdef".toList := by
  have hdigit : ∀ d < 16, Nat.digitChar d ∈ "0123456789abcdef".toList := by decide
  unfold write at h
  obtain ⟨b, _, hb⟩ := List.mem_flatMap.1 h
  unfold writeByte at hb
  rw [List.mem_cons, List.mem_singleton] at hb
  cases hb with
  | inl hhigh =>
    rw [hhigh]
    exact hdigit _ (high_lt b)
  | inr hlow =>
    rw [hlow]
    exact hdigit _ (low_lt b)

theorem write_ofNat_cons {high low : Nat} (hhigh : high < 16) (hlow : low < 16) (rest : List UInt8) :
    write (UInt8.ofNat (high * 16 + low) :: rest) = high.digitChar :: low.digitChar :: write rest := by
  have hlt : high * 16 + low < 256 := by omega
  have hdiv : (high * 16 + low) / 16 = high := by omega
  have hmod : (high * 16 + low) % 16 = low := by omega
  rw [write_cons, UInt8.toNat_ofNat_of_lt' hlt, hdiv, hmod]

theorem readPairs_of_spelled {bytes : List UInt8} : ∀ {cs : List Char} (position : Nat),
    cs.map Char.toLower = write bytes → readPairs position cs = .ok bytes := by
  induction bytes with
  | nil =>
    intro cs position h
    rw [List.map_eq_nil_iff.1 h]
    rfl
  | cons b rest ih =>
    intro cs position h
    rw [write_cons] at h
    obtain ⟨x, _, rfl, hx, h⟩ := List.map_eq_cons_iff.1 h
    obtain ⟨y, tail, rfl, hy, h⟩ := List.map_eq_cons_iff.1 h
    have hb : b.toNat / 16 * 16 + b.toNat % 16 = b.toNat := by omega
    unfold readPairs
    rw [readDigit_eq_ok_iff.2 ⟨high_lt b, hx⟩]
    rw [readDigit_eq_ok_iff.2 ⟨low_lt b, hy⟩]
    rw [ih _ h]
    dsimp only [bind, Except.bind, pure, Except.pure]
    rw [hb, UInt8.ofNat_toNat]

theorem spelled_of_readPairs (position : Nat) (cs : List Char) :
    ∀ {bytes : List UInt8}, readPairs position cs = .ok bytes → cs.map Char.toLower = write bytes := by
  fun_induction readPairs position cs with
  | case1 position =>
    intro bytes h
    cases h
    rfl
  | case2 position c =>
    intro bytes h
    obtain ⟨_, _, h⟩ := bind_eq_ok_iff.1 h
    cases h
  | case3 position a b rest ih =>
    intro bytes h
    obtain ⟨high, ha, h⟩ := bind_eq_ok_iff.1 h
    obtain ⟨low, hb, h⟩ := bind_eq_ok_iff.1 h
    obtain ⟨tail, hr, h⟩ := bind_eq_ok_iff.1 h
    cases h
    obtain ⟨hhigh, hx⟩ := readDigit_eq_ok_iff.1 ha
    obtain ⟨hlow, hy⟩ := readDigit_eq_ok_iff.1 hb
    rw [write_ofNat_cons hhigh hlow]
    rw [List.map_cons, List.map_cons, hx, hy, ih hr]

theorem read_eq_ok_iff {cs : List Char} {bytes : List UInt8} :
    read cs = .ok bytes ↔ cs.map Char.toLower = write bytes := by
  constructor
  · intro h
    unfold read at h
    split at h
    · cases h
    · exact spelled_of_readPairs 0 cs h
  · intro h
    have hread := readPairs_of_spelled 0 h
    have hwidth := width_of_readPairs hread
    rw [read, if_neg (by omega), hread]

theorem readExactly_eq_ok_iff {n : Nat} {cs : List Char} {bytes : List UInt8} :
    readExactly n cs = .ok bytes ↔ cs.map Char.toLower = write bytes ∧ bytes.length = n := by
  constructor
  · intro h
    refine ⟨?_, length_of_readExactly h⟩
    unfold readExactly at h
    split at h
    · cases h
    · split at h
      · cases h
      · exact spelled_of_readPairs 0 cs h
  · rintro ⟨h, hlength⟩
    have hread := readPairs_of_spelled 0 h
    have hwidth := width_of_readPairs hread
    rw [readExactly, if_neg (by omega), if_neg (by omega), hread]

theorem even_of_spelled {cs : List Char} {bytes : List UInt8} (h : cs.map Char.toLower = write bytes) :
    cs.length % 2 = 0 := by
  have hlength := congrArg List.length h
  rw [List.length_map, length_write] at hlength
  omega

theorem exists_digitChar {c : Char} (h : c ∈ "0123456789abcdef".toList) : ∃ d < 16, c = d.digitChar := by
  have hdigits : "0123456789abcdef".toList = (List.range 16).map Nat.digitChar := rfl
  rw [hdigits, List.mem_map] at h
  obtain ⟨d, hd, rfl⟩ := h
  exact ⟨d, List.mem_range.1 hd, rfl⟩

theorem toLower_of_mem_digits {c : Char} (h : c ∈ "0123456789abcdef".toList) : c.toLower = c := by
  have hall : ∀ d < 16, d.digitChar.toLower = d.digitChar := by decide
  obtain ⟨d, hd, rfl⟩ := exists_digitChar h
  apply hall d hd

theorem exists_spelled {n : Nat} : ∀ {cs : List Char}, cs.length = 2 * n →
    (∀ c ∈ cs, c.toLower ∈ "0123456789abcdef".toList) →
      ∃ bytes : List UInt8, bytes.length = n ∧ cs.map Char.toLower = write bytes := by
  induction n with
  | zero =>
    intro cs hlength _
    rw [List.length_eq_zero_iff.1 hlength]
    exact ⟨[], rfl, rfl⟩
  | succ n ih =>
    intro cs hlength hdigits
    obtain ⟨a, b, rest, rfl⟩ : ∃ a b rest, cs = a :: b :: rest := by
      rcases cs with _ | ⟨a, _ | ⟨b, rest⟩⟩
      · simp at hlength
      · simp at hlength
        omega
      · exact ⟨a, b, rest, rfl⟩
    obtain ⟨ha, hb, hrest⟩ : a.toLower ∈ _ ∧ b.toLower ∈ _ ∧ ∀ c ∈ rest, c.toLower ∈ _ := by
      simpa only [List.forall_mem_cons] using hdigits
    obtain ⟨high, hhigh, ha⟩ := exists_digitChar ha
    obtain ⟨low, hlow, hb⟩ := exists_digitChar hb
    have hlength : rest.length = 2 * n := by
      simp only [List.length_cons] at hlength
      omega
    obtain ⟨bytes, hbytes, hspelled⟩ := ih hlength hrest
    refine ⟨UInt8.ofNat (high * 16 + low) :: bytes, congrArg Nat.succ hbytes, ?_⟩
    rw [write_ofNat_cons hhigh hlow]
    rw [List.map_cons, List.map_cons, ha, hb, hspelled]

theorem mem_digits_of_spelled {cs : List Char} {bytes : List UInt8} (h : cs.map Char.toLower = write bytes)
    {c : Char} (hc : c ∈ cs) : c.toLower ∈ "0123456789abcdef".toList := by
  apply mem_digits_of_mem_write
  rw [← h]
  exact List.mem_map_of_mem hc

end Hex

end ChainIndex
