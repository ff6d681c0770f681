import ChainIndex.Text.Numeral

/-!
This module contains the proof of which texts are read as numbers, and as which: digits behind one plus sign or none.
Without the sign, and without the zeros in front, they are the text that the number is written as.
-/

namespace ChainIndex

namespace Numeral

structure Digits (bound : Nat) (cs : List Char) : Prop where
  ne_nil : cs ≠ []
  isDigit : ∀ c ∈ cs, c.isDigit = true
  lt_bound : Nat.ofDigitChars 10 cs 0 < bound

inductive Numeric (bound : Nat) : List Char → Prop where
  | unsigned {digits : List Char} (h : Digits bound digits) : Numeric bound digits
  | signed {digits : List Char} (h : Digits bound digits) : Numeric bound ('+' :: digits)

structure Canonical (bound : Nat) (cs : List Char) : Prop extends Digits bound cs where
  eq_zero : cs.head? = some '0' → cs = ['0']

def dropPlus : List Char → List Char
  | '+' :: rest => rest
  | cs => cs

def trim (cs : List Char) : List Char :=
  match cs.dropWhile (· = '0') with
  | [] => ['0']
  | digits => digits

def normalize (cs : List Char) : List Char :=
  trim (dropPlus cs)

variable {limit bound n : Nat} {cs : List Char}

theorem dropPlus_of_head_ne (h : cs.head? ≠ some '+') : dropPlus cs = cs := by
  unfold dropPlus
  split
  · simp at h
  · rfl

theorem plus_not_mem_of_isDigit (h : ∀ c ∈ cs, c.isDigit = true) : '+' ∉ cs := by
  intro hmem
  exact absurd (h _ hmem) (by decide)

theorem dropPlus_of_isDigit (h : ∀ c ∈ cs, c.isDigit = true) : dropPlus cs = cs := by
  apply dropPlus_of_head_ne
  intro hhead
  apply plus_not_mem_of_isDigit h
  apply List.mem_of_head? hhead

theorem numeric_iff : Numeric bound cs ↔ Digits bound (dropPlus cs) := by
  constructor
  · intro h
    cases h with
    | unsigned h => rwa [dropPlus_of_isDigit h.isDigit]
    | signed h => apply h
  · intro h
    unfold dropPlus at h
    split at h
    · apply Numeric.signed h
    · apply Numeric.unsigned h

theorem digit?_of_isDigit {c : Char} (h : c.isDigit = true) : digit? c = some (c.toNat - 48) :=
  if_pos h

theorem digit?_of_not_isDigit {c : Char} (h : c.isDigit = false) : digit? c = none :=
  if_neg (by simp [h])

theorem le_ofDigitChars (cs : List Char) : ∀ acc, acc ≤ Nat.ofDigitChars 10 cs acc := by
  induction cs with
  | nil => simp
  | cons c rest ih =>
    intro acc
    rw [Nat.ofDigitChars_cons]
    apply Nat.le_trans _ (ih _)
    omega

theorem readDigits_eq_ok_iff (cs : List Char) : ∀ {acc}, acc ≤ limit →
    (readDigits limit acc cs = .ok n ↔
      (∀ c ∈ cs, c.isDigit = true) ∧ Nat.ofDigitChars 10 cs acc = n ∧ n ≤ limit) := by
  induction cs with
  | nil =>
    intro acc hacc
    simp [readDigits]
    omega
  | cons c rest ih =>
    intro acc hacc
    have hzero : '0'.toNat = 48 := rfl
    rw [readDigits, List.forall_mem_cons, Nat.ofDigitChars_cons, hzero, Nat.mul_comm 10]
    cases hc : c.isDigit with
    | false => simp [digit?_of_not_isDigit hc]
    | true =>
      rw [digit?_of_isDigit hc]
      dsimp only
      split
      · next hle => simp [ih hle]
      · next hgt =>
        have hle := le_ofDigitChars rest (acc * 10 + (c.toNat - 48))
        simp
        omega

theorem readNat_of_dropPlus_ne_nil (h : dropPlus cs ≠ []) :
    readNat limit cs = readDigits limit 0 (dropPlus cs) := by
  cases cs with
  | nil => exact absurd rfl h
  | cons c rest =>
    by_cases hc : c = '+'
    · subst hc
      cases rest with
      | nil => exact absurd rfl h
      | cons d tail => rfl
    · rw [dropPlus_of_head_ne (by simpa using hc)]
      unfold readNat
      split <;> simp_all

theorem readNat_of_dropPlus_eq_nil (h : dropPlus cs = []) : ∃ fault, readNat limit cs = .error fault := by
  unfold dropPlus at h
  split at h
  · rw [h]
    exact ⟨_, rfl⟩
  · rw [h]
    exact ⟨_, rfl⟩

theorem readNat_eq_ok_iff_digits :
    readNat limit cs = .ok n ↔ Digits (limit + 1) (dropPlus cs) ∧ Nat.ofDigitChars 10 (dropPlus cs) 0 = n := by
  by_cases h : dropPlus cs = []
  · obtain ⟨fault, hfault⟩ : ∃ fault, readNat limit cs = .error fault := readNat_of_dropPlus_eq_nil h
    have hnone : ¬Digits (limit + 1) (dropPlus cs) := fun hdigits => hdigits.ne_nil h
    rw [hfault]
    simp [hnone]
  · rw [readNat_of_dropPlus_ne_nil h, readDigits_eq_ok_iff _ (Nat.zero_le _)]
    constructor
    · rintro ⟨hdigits, hvalue, hle⟩
      exact ⟨⟨h, hdigits, by omega⟩, hvalue⟩
    · rintro ⟨hdigits, hvalue⟩
      have hlt := hdigits.lt_bound
      exact ⟨hdigits.isDigit, hvalue, by omega⟩

theorem exists_digitChar {c : Char} (h : c.isDigit = true) : ∃ d < 10, c = d.digitChar := by
  rw [Char.isDigit_iff_toNat] at h
  have hlt : c.toNat - 48 < 10 := by
    have := h.2
    simp at this
    omega
  refine ⟨c.toNat - 48, hlt, ?_⟩
  rw [← Char.toNat_inj, Nat.toNat_digitChar_of_lt_ten hlt]
  have := h.1
  simp at this
  omega

theorem toDigits_append (cs : List Char) (h : ∀ c ∈ cs, c.isDigit = true) : ∀ {acc}, 0 < acc →
    Nat.toDigits 10 acc ++ cs = Nat.toDigits 10 (Nat.ofDigitChars 10 cs acc) := by
  induction cs with
  | nil => simp
  | cons c rest ih =>
    intro acc hacc
    obtain ⟨hc, hrest⟩ := List.forall_mem_cons.1 h
    obtain ⟨d, hd, rfl⟩ := exists_digitChar hc
    rw [Nat.ofDigitChars_cons_digitChar_of_lt_ten hd, ← ih hrest (by omega),
      ← Nat.toDigits_append_toDigits (by decide) hacc hd, Nat.toDigits_of_lt_base hd, List.append_assoc]
    rfl

theorem write_ofDigitChars (cs : List Char) (h : ∀ c ∈ cs, c.isDigit = true) :
    write (Nat.ofDigitChars 10 cs 0) = trim cs := by
  induction cs with
  | nil => rfl
  | cons c rest ih =>
    obtain ⟨hc, hrest⟩ := List.forall_mem_cons.1 h
    by_cases hzero : c = '0'
    · subst hzero
      apply ih hrest
    · obtain ⟨d, hd, rfl⟩ := exists_digitChar hc
      have hpos : 0 < d := by
        apply Nat.pos_of_ne_zero
        rintro rfl
        exact hzero rfl
      rw [Nat.ofDigitChars_cons_digitChar_of_lt_ten hd]
      simp only [Nat.mul_zero, Nat.zero_add]
      rw [write, ← toDigits_append rest hrest hpos, Nat.toDigits_of_lt_base hd]
      simp [trim, hzero]

theorem write_inj {m : Nat} (h : write m = write n) : m = n := by
  rw [← Nat.ofDigitChars_ten_toDigits (n := m), ← Nat.ofDigitChars_ten_toDigits (n := n)]
  exact congrArg _ h

theorem readNat_eq_ok_iff : readNat limit cs = .ok n ↔ Numeric (limit + 1) cs ∧ write n = normalize cs := by
  rw [readNat_eq_ok_iff_digits, numeric_iff]
  apply and_congr_right
  intro h
  rw [normalize, ← write_ofDigitChars _ h.isDigit]
  constructor
  · rintro rfl
    rfl
  · intro heq
    apply (write_inj heq).symm

theorem readNat_eq_ok_iff_of_le {limit' : Nat} (h : limit ≤ limit') :
    readNat limit cs = .ok n ↔ readNat limit' cs = .ok n ∧ n ≤ limit := by
  rw [readNat_eq_ok_iff_digits, readNat_eq_ok_iff_digits]
  constructor
  · rintro ⟨⟨hne, hdigits, hlt⟩, rfl⟩
    exact ⟨⟨⟨hne, hdigits, by omega⟩, rfl⟩, by omega⟩
  · rintro ⟨⟨⟨hne, hdigits, _⟩, rfl⟩, hle⟩
    exact ⟨⟨hne, hdigits, by omega⟩, rfl⟩

theorem exists_readNat (h : Numeric (limit + 1) cs) : ∃ n ≤ limit, readNat limit cs = .ok n := by
  rw [numeric_iff] at h
  exact ⟨_, Nat.le_of_lt_succ h.lt_bound, readNat_eq_ok_iff_digits.2 ⟨h, rfl⟩⟩

theorem trim_cases (cs : List Char) : trim cs = ['0'] ∨ (trim cs).head? ≠ some '0' := by
  have hhead := List.head?_dropWhile_not (fun c => decide (c = '0')) cs
  unfold trim
  split
  · left
    rfl
  · right
    intro hzero
    rw [hzero] at hhead
    simp at hhead

theorem trim_of_head_ne (hne : cs ≠ []) (h : cs.head? ≠ some '0') : trim cs = cs := by
  cases cs with
  | nil => exact absurd rfl hne
  | cons c rest =>
    have hc : c ≠ '0' := by simpa using h
    simp [trim, hc]

theorem canonical_write (h : n < bound) : Canonical bound (write n) := by
  have hdigits : ∀ c ∈ write n, c.isDigit = true := fun _ => isDigit_of_mem_write
  have hvalue : Nat.ofDigitChars 10 (write n) 0 = n := Nat.ofDigitChars_ten_toDigits
  have htrim : trim (write n) = write n := by rw [← write_ofDigitChars _ hdigits, hvalue]
  refine ⟨⟨Nat.toDigits_ne_nil, hdigits, ?_⟩, ?_⟩
  · rw [hvalue]
    apply h
  · intro hhead
    cases trim_cases (write n) with
    | inl hzero => rw [← htrim, hzero]
    | inr hne =>
      rw [htrim] at hne
      exact absurd hhead hne

theorem Canonical.normalize_eq (h : Canonical bound cs) : normalize cs = cs := by
  rw [normalize, dropPlus_of_isDigit h.isDigit]
  by_cases hhead : cs.head? = some '0'
  · rw [h.eq_zero hhead]
    rfl
  · apply trim_of_head_ne h.ne_nil hhead

theorem exists_write (n : Nat) : ∃ d ds, write n = d :: ds ∧ d.isDigit = true := by
  have hcanonical := canonical_write (Nat.lt_succ_self n)
  obtain ⟨d, ds, hds⟩ := List.exists_cons_of_ne_nil hcanonical.ne_nil
  refine ⟨d, ds, hds, ?_⟩
  apply hcanonical.isDigit
  rw [hds]
  exact List.mem_cons_self

theorem readInt_write {below above n : Nat} (h : n ≤ above) :
    readInt below above (write n) = .ok n := by
  have hread : readNat above (write n) = .ok n := readNat_write h
  obtain ⟨d, ds, hds, hd⟩ := exists_write n
  rw [hds] at hread ⊢
  unfold readInt
  split
  · next heq =>
    cases heq
    contradiction
  · next heq =>
    cases heq
    contradiction
  · rw [hread]
    rfl

theorem readInt_minus_write {below above n : Nat} (h : n ≤ below) :
    readInt below above ('-' :: write n) = .ok (-n) := by
  have hread : readDigits below 0 (write n) = .ok n := readDigits_write h
  obtain ⟨d, ds, hds, hd⟩ := exists_write n
  rw [hds] at hread ⊢
  simp only [readInt, hread]

end Numeral

end ChainIndex
