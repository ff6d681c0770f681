import ChainIndex.Json.Parser
import ChainIndex.Json.Printer
import ChainIndex.Proofs.Text.NumeralSpelling

/-!
This module contains the proof that a JSON value is read back from its text. Only values that a text can say exactly
are: no string among them is broken, and every number is an integer.
-/

namespace ChainIndex

namespace Json

inductive Escaped : Char → List Char → Prop where
  | plain {c : Char} (hquote : c ≠ '"') (hslash : c ≠ '\\') (h : ¬c.toNat < 0x20) : Escaped c [c]
  | short {c e : Char} (h : unescape? e = some c) : Escaped c ['\\', e]
  | unit {c : Char} (h : c.toNat < 0x20) :
    Escaped c ['\\', 'u', '0', '0', Nat.digitChar (c.toNat / 16), Nat.digitChar (c.toNat % 16)]

theorem Escaped.ite {c d e : Char} {cs : List Char} (he : unescape? e = some d) (h : c ≠ d → Escaped c cs) :
    Escaped c (if c = d then ['\\', e] else cs) := by
  split
  · next hc =>
    rw [hc]
    exact .short he
  · next hc => apply h hc

theorem escaped_escapeChar (c : Char) : Escaped c (escapeChar c) := by
  unfold escapeChar
  apply Escaped.ite rfl
  intro hquote
  apply Escaped.ite rfl
  intro hslash
  iterate 5
    apply Escaped.ite rfl
    intro _
  split
  · next h => exact .unit h
  · next h => exact .plain hquote hslash h

theorem settle_none : Scanned.settle none = id := rfl

theorem scanText_escaped {c : Char} {cs : List Char} (h : Escaped c cs) (rest : List Char) :
    scanText none (cs ++ rest) = (scanText none rest).map (Scanned.push c) := by
  cases h with
  | plain hquote hslash h =>
    rw [List.singleton_append, scanText, if_neg h]
    · rfl
    · exact hquote
    · simp [hslash]
    · simp [hslash]
  | @short e h =>
    have hunit : e ≠ 'u' := by
      rintro rfl
      cases h
    rw [List.cons_append, List.singleton_append, scanText, h]
    · rfl
    · simp [hunit]
  | unit h =>
    have hhigh : c.toNat / 16 < 16 := by omega
    have hlow : c.toNat % 16 < 16 := by omega
    have hvalue : c.toNat / 16 * 16 + c.toNat % 16 = c.toNat := by omega
    have hunit : unit? '0' '0' (Nat.digitChar (c.toNat / 16)) (Nat.digitChar (c.toNat % 16)) = some c.toNat := by
      unfold unit?
      rw [Hex.digit?_digitChar hhigh, Hex.digit?_digitChar hlow, show Hex.digit? '0' = some 0 from rfl]
      simp [hvalue]
    have hnotHigh : isHighSurrogate c.toNat = false := by
      simp [isHighSurrogate]
      omega
    have hnotLow : isLowSurrogate c.toNat = false := by
      simp [isLowSurrogate]
      omega
    simp only [List.cons_append, List.nil_append]
    rw [scanText, hunit]
    simp [hnotHigh, hnotLow, settle_none, Char.ofNat_toNat]

theorem scanText_quote (cs rest : List Char) :
    scanText none (cs.flatMap escapeChar ++ '"' :: rest) = some (some cs, rest) := by
  induction cs with
  | nil => rfl
  | cons c cs ih =>
    rw [List.flatMap_cons, List.append_assoc, scanText_escaped (escaped_escapeChar c), ih]
    rfl

/--
The text does not carry on a number that stands in front of it.
-/
def Ends (cs : List Char) : Prop :=
  ∀ c ∈ cs.head?, c.isDigit = false ∧ c ≠ '.' ∧ c ≠ 'e' ∧ c ≠ 'E'

theorem Ends.nil : Ends [] := by
  intro c hc
  cases hc

theorem Ends.cons {c : Char} (h : c.isDigit = false ∧ c ≠ '.' ∧ c ≠ 'e' ∧ c ≠ 'E') (cs : List Char) :
    Ends (c :: cs) := by
  intro d hd
  cases hd
  apply h

theorem digits_append {ds rest : List Char} (hds : ∀ c ∈ ds, c.isDigit = true) (hrest : Ends rest) :
    digits (ds ++ rest) = (ds, rest) := by
  unfold digits
  rw [List.takeWhile_append_of_pos hds, List.dropWhile_append_of_pos hds]
  cases rest with
  | nil => simp
  | cons c rest =>
    have hc := (hrest c rfl).1
    simp [hc]

theorem scanFraction_of_ends {rest : List Char} (h : Ends rest) : scanFraction rest = some (false, rest) := by
  unfold scanFraction
  split
  · exact absurd rfl (h _ rfl).2.1
  · rfl

theorem scanExponent_of_ends {rest : List Char} (h : Ends rest) : scanExponent rest = some (false, rest) := by
  unfold scanExponent
  split
  · rfl
  · next c rest =>
    obtain ⟨_, _, hlower, hupper⟩ := h c rfl
    rw [if_neg (by simp [hlower, hupper])]

inductive Number.Exact : Number → Prop where
  | unsigned (n : UInt64) : Exact (.unsigned n)
  | negative {n : Int64} (h : n < 0) : Exact (.negative n)

theorem scanNumber_of_digits {cs ds rest : List Char} {bound : Nat} {n : Number}
    (hdigits : digits (if cs.head? = some '-' then cs.tail else cs) = (ds, rest))
    (hcanonical : Numeral.Canonical bound ds) (hends : Ends rest)
    (hn : Number.ofDigits (cs.head? = some '-') ds = some n) : scanNumber cs = some (n, rest) := by
  have hzero : ¬(ds = [] ∨ ds.head? = some '0' ∧ 1 < ds.length) := by
    rintro (hnil | ⟨hhead, hlength⟩)
    · exact hcanonical.ne_nil hnil
    · rw [hcanonical.eq_zero hhead] at hlength
      cases hlength
      contradiction
  unfold scanNumber
  simp only [hdigits, if_neg hzero, scanFraction_of_ends hends, hn]
  simp [scanExponent_of_ends hends]

theorem ofDigits_unsigned (n : UInt64) : Number.ofDigits false (Numeral.write n.toNat) = some (.unsigned n) := by
  have hle : n.toNat ≤ maxUnsigned := Nat.le_sub_one_of_lt n.toNat_lt
  unfold Number.ofDigits
  rw [if_neg (by decide), Numeral.readInt_write hle]
  simp

theorem ofDigits_negative {n : Int64} (h : n < 0) :
    Number.ofDigits true (Numeral.write n.toInt.natAbs) = some (.negative n) := by
  have hneg : n.toInt < 0 := Int64.lt_iff_toInt_lt.1 h
  have hle : n.toInt.natAbs ≤ UInt64.size / 2 := by
    have hsize : UInt64.size / 2 = 9223372036854775808 := rfl
    have := n.le_toInt
    omega
  have hvalue : -(n.toInt.natAbs : Int) = n.toInt := by omega
  have hzero : n.toInt ≠ 0 := by omega
  unfold Number.ofDigits
  rw [if_pos rfl, Numeral.readInt_minus_write hle, hvalue]
  dsimp only
  rw [if_neg hzero, Int64.ofInt_toInt]

theorem scanNumber_write {n : Number} (hn : Number.Exact n) {rest : List Char} (h : Ends rest) :
    scanNumber (Number.write n ++ rest) = some (n, rest) := by
  cases hn with
  | unsigned n =>
    have hcanonical := Numeral.canonical_write (Nat.lt_succ_self n.toNat)
    have hhead : (Number.write (.unsigned n) ++ rest).head? ≠ some '-' := by
      obtain ⟨d, ds, hds, hd⟩ := Numeral.exists_write n.toNat
      dsimp only [Number.write]
      rw [hds]
      rintro hminus
      cases hminus
      contradiction
    apply scanNumber_of_digits _ hcanonical h
    · rw [decide_eq_false hhead]
      apply ofDigits_unsigned
    · rw [if_neg hhead]
      apply digits_append hcanonical.isDigit h
  | @negative n hn =>
    have hcanonical := Numeral.canonical_write (Nat.lt_succ_self n.toInt.natAbs)
    apply scanNumber_of_digits _ hcanonical h
    · apply ofDigits_negative hn
    · apply digits_append hcanonical.isDigit h

inductive Exact : Json → Prop where
  | null : Exact .null
  | bool (b : Bool) : Exact (.bool b)
  | number {n : Number} (h : Number.Exact n) : Exact (.number n)
  | text (s : String) : Exact (.text s)
  | array {items : List Json} (h : ∀ item ∈ items, Exact item) : Exact (.array items)
  | object {fields : List (String × Json)} (h : ∀ field ∈ fields, Exact field.2) : Exact (.object fields)

def Opens (cs : List Char) : Prop :=
  ∃ c rest, cs = c :: rest ∧ ¬(c = ' ' ∨ c = '\n' ∨ c = '\t' ∨ c = '\r') ∧ c ≠ ']'

theorem Opens.skipSpace_eq {cs : List Char} (h : Opens cs) : skipSpace cs = cs := by
  obtain ⟨c, rest, rfl, hblank, _⟩ := h
  rw [skipSpace, if_neg hblank]

theorem Opens.append {cs : List Char} (h : Opens cs) (rest : List Char) : Opens (cs ++ rest) := by
  obtain ⟨c, tail, rfl, hc⟩ := h
  exact ⟨c, tail ++ rest, rfl, hc⟩

theorem exists_write {n : Number} (h : Number.Exact n) :
    ∃ c cs, Number.write n = c :: cs ∧ (c.isDigit || c == '-') = true := by
  cases h with
  | unsigned n =>
    obtain ⟨d, ds, hds, hd⟩ := Numeral.exists_write n.toNat
    exact ⟨d, ds, hds, by rw [hd, Bool.true_or]⟩
  | negative _ => exact ⟨'-', _, rfl, rfl⟩

theorem Exact.opens {j : Json} (h : j.Exact) : Opens (write j) := by
  cases h with
  | null => exact ⟨_, _, rfl, by decide⟩
  | bool b => cases b <;> exact ⟨_, _, rfl, by decide⟩
  | number h =>
    obtain ⟨c, cs, hwrite, hc⟩ := exists_write h
    refine ⟨c, cs, hwrite, ?_, ?_⟩
    · rintro (rfl | rfl | rfl | rfl) <;> contradiction
    · rintro rfl
      contradiction
  | text s => exact ⟨_, _, rfl, by decide⟩
  | array _ => exact ⟨_, _, rfl, by decide⟩
  | object _ => exact ⟨_, _, rfl, by decide⟩

theorem opens_writeItems {item : Json} (h : item.Exact) (items : List Json) : Opens (writeItems (item :: items)) := by
  cases items with
  | nil => apply h.opens.append
  | cons next items => apply h.opens.append

theorem exists_writeFields (field : String × Json) (fields : List (String × Json)) :
    ∃ cs, writeFields (field :: fields) = '"' :: cs := by
  cases fields with
  | nil => exact ⟨_, rfl⟩
  | cons next fields => exact ⟨_, rfl⟩

theorem Exact.length_pos {j : Json} (h : j.Exact) : 0 < (write j).length := by
  obtain ⟨c, rest, hwrite, _⟩ := h.opens
  rw [hwrite]
  apply Nat.succ_pos

theorem scanValue_number {n : Number} (hn : Number.Exact n) {rest : List Char} (h : Ends rest) (fuel : Nat) :
    scanValue (fuel + 1) (Number.write n ++ rest) = some (.number n, rest) := by
  have hopens : Opens (Number.write n ++ rest) := (Exact.number hn).opens.append rest
  have hscan := scanNumber_write hn h
  obtain ⟨c, cs, hwrite, hc⟩ := exists_write hn
  rw [scanValue, hopens.skipSpace_eq]
  rw [hwrite, List.cons_append] at hscan ⊢
  split
  case h_7 =>
    rw [hscan]
    rfl
  all_goals
    next heq =>
      obtain ⟨rfl, _⟩ := List.cons.inj heq
      contradiction

theorem quote_append (s : String) (rest : List Char) :
    quote s ++ rest = '"' :: (s.toList.flatMap escapeChar ++ '"' :: rest) := by
  simp [quote]

theorem scanValue_text (s : String) (rest : List Char) (fuel : Nat) :
    scanValue (fuel + 1) (quote s ++ rest) = some (.text s, rest) := by
  rw [quote_append, scanValue]
  simp [skipSpace, scanText_quote, ofScanned]

theorem scanValue_array {cs rest : List Char} {items : List Json} {fuel : Nat} (hcs : Opens cs)
    (h : scanItems fuel cs = some (items, rest)) : scanValue (fuel + 1) ('[' :: cs) = some (.array items, rest) := by
  obtain ⟨c, tail, rfl, hblank, hclose⟩ := hcs
  rw [scanValue]
  simp [skipSpace, hblank, hclose, h]

theorem scanValue_object {cs rest : List Char} {fields : List (String × Json)} {fuel : Nat}
    (h : scanFields fuel ('"' :: cs) = some (some fields, rest)) :
    scanValue (fuel + 1) ('\x7b' :: '"' :: cs) = some (.object fields, rest) := by
  rw [scanValue]
  simp [skipSpace, h]

theorem scanItems_last {cs rest : List Char} {item : Json} {fuel : Nat}
    (h : scanValue fuel cs = some (item, ']' :: rest)) : scanItems (fuel + 1) cs = some ([item], rest) := by
  rw [scanItems, h]
  rfl

theorem scanItems_next {cs tail rest : List Char} {item : Json} {items : List Json} {fuel : Nat}
    (h : scanValue fuel cs = some (item, ',' :: tail)) (hitems : scanItems fuel tail = some (items, rest)) :
    scanItems (fuel + 1) cs = some (item :: items, rest) := by
  rw [scanItems, h]
  simp [skipSpace, hitems]

theorem scanFields_last {cs rest : List Char} {name : String} {value : Json} {fuel : Nat}
    (h : scanValue fuel cs = some (value, '\x7d' :: rest)) :
    scanFields (fuel + 1) (quote name ++ ':' :: cs) = some (some [(name, value)], rest) := by
  rw [quote_append, scanFields]
  simp [skipSpace, scanText_quote, h]

theorem scanFields_next {cs tail rest : List Char} {name : String} {value : Json} {fields : List (String × Json)}
    {fuel : Nat} (h : scanValue fuel cs = some (value, ',' :: tail))
    (hfields : scanFields fuel tail = some (some fields, rest)) :
    scanFields (fuel + 1) (quote name ++ ':' :: cs) = some (some ((name, value) :: fields), rest) := by
  rw [quote_append, scanFields]
  simp [skipSpace, scanText_quote, h, hfields]

/--
The value is read back from its text whatever follows, and with no more fuel than a whole text is given.
-/
def Readable (j : Json) : Prop :=
  ∀ fuel rest, Ends rest → 2 * (write j).length ≤ fuel → scanValue fuel (write j ++ rest) = some (j, rest)

theorem scanItems_write {items : List Json} : ∀ {item : Json}, (∀ j ∈ item :: items, Readable j) →
    ∀ {fuel rest}, 2 * (writeItems (item :: items)).length ≤ fuel →
      scanItems fuel (writeItems (item :: items) ++ rest) = some (item :: items, rest) := by
  induction items with
  | nil =>
    intro item h fuel rest hfuel
    rw [writeItems, List.length_append, List.length_singleton] at hfuel
    obtain ⟨fuel, rfl⟩ : ∃ n, fuel = n + 1 := ⟨fuel - 1, by omega⟩
    -- The mark behind an item pays for the fuel that the list takes beside the item.
    rw [writeItems, List.append_assoc]
    apply scanItems_last
    apply h item List.mem_cons_self _ _ (.cons (by decide) _) (by omega)
  | cons next items ih =>
    intro item h fuel rest hfuel
    rw [writeItems, List.length_append, List.length_cons] at hfuel
    obtain ⟨fuel, rfl⟩ : ∃ n, fuel = n + 1 := ⟨fuel - 1, by omega⟩
    rw [writeItems, List.append_assoc]
    apply scanItems_next
    · apply h item List.mem_cons_self _ _ (.cons (by decide) _) (by omega)
    · apply ih _ (by omega)
      intro j hj
      apply h j (List.mem_cons_of_mem item hj)

theorem scanFields_write {fields : List (String × Json)} : ∀ {field : String × Json},
    (∀ f ∈ field :: fields, Readable f.2) → ∀ {fuel rest}, 2 * (writeFields (field :: fields)).length ≤ fuel →
      scanFields fuel (writeFields (field :: fields) ++ rest) = some (some (field :: fields), rest) := by
  induction fields with
  | nil =>
    rintro ⟨name, value⟩ h fuel rest hfuel
    simp only [writeFields, List.length_append, List.length_cons, List.length_nil] at hfuel
    obtain ⟨fuel, rfl⟩ : ∃ n, fuel = n + 1 := ⟨fuel - 1, by omega⟩
    rw [writeFields, List.append_assoc, List.append_assoc]
    apply scanFields_last
    apply h (name, value) List.mem_cons_self _ _ (.cons (by decide) _)
    dsimp only
    omega
  | cons next fields ih =>
    rintro ⟨name, value⟩ h fuel rest hfuel
    simp only [writeFields, List.length_append, List.length_cons] at hfuel
    obtain ⟨fuel, rfl⟩ : ∃ n, fuel = n + 1 := ⟨fuel - 1, by omega⟩
    rw [writeFields, List.append_assoc, List.append_assoc]
    apply scanFields_next
    · apply h (name, value) List.mem_cons_self _ _ (.cons (by decide) _)
      dsimp only
      omega
    · apply ih _ (by omega)
      intro f hf
      apply h f (List.mem_cons_of_mem _ hf)

theorem Exact.readable_of {j : Json} (h : j.Exact)
    (hscan : ∀ fuel rest, Ends rest → 2 * (write j).length ≤ fuel + 1 →
      scanValue (fuel + 1) (write j ++ rest) = some (j, rest)) : Readable j := by
  intro fuel rest hrest hfuel
  have hlength := h.length_pos
  obtain ⟨fuel, rfl⟩ : ∃ n, fuel = n + 1 := ⟨fuel - 1, by omega⟩
  apply hscan fuel rest hrest hfuel

theorem Exact.readable {j : Json} (h : j.Exact) : Readable j := by
  induction h with
  | null =>
    apply Exact.readable_of .null
    intro fuel rest _ _
    rfl
  | bool b =>
    apply Exact.readable_of (.bool b)
    intro fuel rest _ _
    cases b <;> rfl
  | number h =>
    apply Exact.readable_of (.number h)
    intro fuel rest hrest _
    rw [write]
    apply scanValue_number h hrest
  | text s =>
    apply Exact.readable_of (.text s)
    intro fuel rest _ _
    rw [write]
    apply scanValue_text
  | @array items h ih =>
    apply Exact.readable_of (.array h)
    intro fuel rest _ hfuel
    rw [write, List.length_cons] at hfuel
    rw [write, List.cons_append]
    cases items with
    | nil => rfl
    | cons item items =>
      apply scanValue_array
      · apply (opens_writeItems (h item List.mem_cons_self) items).append
      · apply scanItems_write ih (by omega)
  | @object fields h ih =>
    apply Exact.readable_of (.object h)
    intro fuel rest _ hfuel
    rw [write, List.length_cons] at hfuel
    rw [write, List.cons_append]
    cases fields with
    | nil => rfl
    | cons field fields =>
      have hfields : scanFields fuel (writeFields (field :: fields) ++ rest) = some (some (field :: fields), rest) := by
        apply scanFields_write ih (by omega)
      obtain ⟨cs, hcs⟩ := exists_writeFields field fields
      rw [hcs, List.cons_append] at hfields ⊢
      apply scanValue_object hfields

theorem parse?_render {j : Json} (h : j.Exact) : parse? (render j) = some j := by
  have hlength : (render j).length = (write j).length := by simp [render]
  have hread := h.readable (2 * (render j).length + 2) [] .nil (by omega)
  rw [List.append_nil] at hread
  unfold parse?
  rw [render, String.toList_ofList, ← render, hread]
  rfl

theorem exists_writeFields_eq {name : String} {value : Json} {fields : List (String × Json)}
    (h : (name, value) ∈ fields) :
    ∃ before after, writeFields fields = before ++ quote name ++ ':' :: write value ++ after := by
  induction fields with
  | nil => cases h
  | cons field fields ih =>
    obtain ⟨name', value'⟩ := field
    cases fields with
    | nil =>
      cases List.mem_singleton.1 h
      exact ⟨[], ['\x7d'], rfl⟩
    | cons next fields =>
      rw [writeFields]
      cases h with
      | head => exact ⟨[], _, rfl⟩
      | tail _ h =>
        obtain ⟨before, after, hwrite⟩ := ih h
        refine ⟨quote name' ++ ':' :: write value' ++ ',' :: before, after, ?_⟩
        rw [hwrite]
        simp

end Json

end ChainIndex
