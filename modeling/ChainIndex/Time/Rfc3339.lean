import ChainIndex.Time.Basic
import ChainIndex.Text.Blank
import ChainIndex.Text.Numeral

/-!
This module contains the RFC 3339 text of a point in time. Writing uses one form, in UTC; reading also
takes offsets, lower-case marks, a blank for the mark between date and time, blanks around the numbers and
numbers with fewer digits.
-/

namespace ChainIndex

namespace Timestamp

def padded (width n : Nat) : List Char :=
  let ds := Numeral.write n
  List.replicate (width - ds.length) '0' ++ ds

def writeYear (year : Int) : List Char :=
  if 0 ≤ year ∧ year ≤ 9999 then padded 4 year.toNat
  else (if year < 0 then '-' else '+') :: padded 4 year.natAbs

def writeFraction (nanosecond : Nat) : List Char :=
  if nanosecond = 0 then []
  else if nanosecond % 1000000 = 0 then '.' :: padded 3 (nanosecond / 1000000)
  else if nanosecond % 1000 = 0 then '.' :: padded 6 (nanosecond / 1000)
  else '.' :: padded 9 nanosecond

def write (t : Timestamp) : List Char :=
  writeYear t.date.year ++ '-' :: padded 2 t.date.month ++ '-' :: padded 2 t.date.day ++
    'T' :: padded 2 t.clock.hour ++ ':' :: padded 2 t.clock.minute ++ ':' :: padded 2 t.clock.second ++
    writeFraction t.clock.nanosecond ++ ['Z']

def toString (t : Timestamp) : String :=
  String.ofList (write t)

def digitsValue (ds : List Char) : Nat :=
  Nat.ofDigitChars 10 ds 0

def takeDigits (limit : Nat) (cs : List Char) : Option (List Char × List Char) :=
  let ds := (cs.take limit).takeWhile Char.isDigit
  if ds = [] then none else some (ds, cs.drop ds.length)

def takeNumber (limit : Nat) (cs : List Char) : Option (Nat × List Char) :=
  (takeDigits limit (Blank.skip cs)).map fun (ds, rest) => (digitsValue ds, rest)

/--
Takes a year: four digits at most, or any number of them after a sign.
-/
def takeYear (cs : List Char) : Option (Int × List Char) :=
  match Blank.skip cs with
  | '-' :: rest => (takeDigits rest.length rest).map fun (ds, rest) => (-(digitsValue ds : Int), rest)
  | '+' :: rest => (takeDigits rest.length rest).map fun (ds, rest) => ((digitsValue ds : Int), rest)
  | cs => (takeDigits 4 cs).map fun (ds, rest) => ((digitsValue ds : Int), rest)

def takeMark (mark : Char) (cs : List Char) : Option (List Char) :=
  match Blank.skip cs with
  | c :: rest => if c = mark then some rest else none
  | [] => none

def takeDate (cs : List Char) : Option (Date × List Char) := do
  let (year, cs) ← takeYear cs
  let cs ← takeMark '-' cs
  let (month, cs) ← takeNumber 2 cs
  let cs ← takeMark '-' cs
  let (day, cs) ← takeNumber 2 cs
  return (⟨year, month, day⟩, cs)

def takeSeparator : List Char → Option (List Char)
  | [] => none
  | c :: rest => if c = 'T' ∨ c = 't' ∨ c = ' ' then some rest else none

def takeFraction : List Char → Option (Nat × List Char)
  | '.' :: rest => do
    let (ds, rest) ← takeDigits 9 rest
    -- Digits after the ninth are passed over.
    return (digitsValue ds * Nat.pow 10 (9 - ds.length), rest.dropWhile Char.isDigit)
  | cs => some (0, cs)

def takeClock (cs : List Char) : Option (Clock × List Char) := do
  let (hour, cs) ← takeNumber 2 cs
  let cs ← takeMark ':' cs
  let (minute, cs) ← takeNumber 2 cs
  let cs ← takeMark ':' cs
  let (second, cs) ← takeNumber 2 cs
  let (nanosecond, cs) ← takeFraction cs
  return (⟨hour, minute, second, nanosecond⟩, cs)

def takePair : List Char → Option (Nat × List Char)
  | a :: b :: rest =>
    if a.isDigit && b.isDigit then some (digitsValue [a, b], rest) else none
  | _ => none

def takeOffsetMinutes (cs : List Char) : Option (Nat × List Char) := do
  let (hours, cs) ← takePair cs
  let (minutes, cs) ← takePair (cs.dropWhile fun c => c == ':' || Blank.isBlank c)
  if minutes < 60 ∧ hours * 60 + minutes < 1440 then return (hours * 60 + minutes, cs) else none

def isMinus (c : Char) : Bool :=
  c == '-' || c.toNat == 0x2212

def takeOffset : List Char → Option (Int × List Char)
  | [] => none
  | c :: rest =>
    if c = 'Z' ∨ c = 'z' then some (0, rest)
    else if c = '+' then (takeOffsetMinutes rest).map fun (n, rest) => ((n : Int), rest)
    else if isMinus c then (takeOffsetMinutes rest).map fun (n, rest) => (-(n : Int), rest)
    else if ((c :: rest).take 3).map Char.toUpper = ['U', 'T', 'C'] then some (0, rest.drop 2)
    else none

def read? (cs : List Char) : Option Timestamp := do
  let (date, cs) ← takeDate cs
  let cs ← takeSeparator cs
  let (clock, cs) ← takeClock cs
  let (offset, cs) ← takeOffset (Blank.skip cs)
  if Blank.skip cs = [] then ofLocal? date clock offset else none

def ofString? (s : String) : Option Timestamp :=
  read? s.toList

theorem isDigit_of_mem_padded {width n : Nat} {c : Char} (h : c ∈ padded width n) : c.isDigit = true := by
  rw [padded, List.mem_append] at h
  cases h with
  | inl hzero =>
    rw [List.eq_of_mem_replicate hzero]
    rfl
  | inr hdigit => exact Numeral.isDigit_of_mem_write hdigit

theorem ofDigitChars_zeros (k : Nat) : Nat.ofDigitChars 10 (List.replicate k '0') 0 = 0 := by
  induction k with
  | zero => rfl
  | succ k ih =>
    rw [List.replicate_succ, Nat.ofDigitChars_cons]
    exact ih

theorem digitsValue_padded (width n : Nat) : digitsValue (padded width n) = n := by
  rw [digitsValue, padded, Nat.ofDigitChars_append]
  rw [ofDigitChars_zeros]
  exact Nat.ofDigitChars_toDigits (by omega) (by omega)

theorem length_padded {width n : Nat} (hwidth : 0 < width) (hn : n < Nat.pow 10 width) :
    (padded width n).length = width := by
  have hlength : (Numeral.write n).length ≤ width := (Nat.length_toDigits_le_iff (by omega) hwidth).2 hn
  rw [padded, List.length_append, List.length_replicate]
  omega

theorem padded_ne_nil (width n : Nat) : padded width n ≠ [] := by
  rw [padded]
  apply List.append_ne_nil_of_right_ne_nil
  exact Nat.toDigits_ne_nil

theorem skip_cons {c : Char} (h : Blank.isBlank c = false) (rest : List Char) :
    Blank.skip (c :: rest) = c :: rest := by
  unfold Blank.skip
  rw [List.dropWhile_cons, h]
  rfl

theorem isBlank_of_isDigit {c : Char} (h : c.isDigit = true) : Blank.isBlank c = false := by
  simp only [Char.isDigit, Bool.and_eq_true, decide_eq_true_eq] at h
  have hlow : 48 ≤ c.toNat := h.1
  have hhigh : c.toNat ≤ 57 := h.2
  simp only [Blank.isBlank, Blank.ranges, List.any_cons, List.any_nil, Bool.or_false,
    Bool.or_eq_false_iff, Bool.and_eq_false_iff, decide_eq_false_iff_not]
  omega

section Digits

variable {ds rest : List Char} (hd : ∀ c ∈ ds, c.isDigit = true) (hne : ds ≠ [])

include hd hne

theorem skip_append : Blank.skip (ds ++ rest) = ds ++ rest := by
  cases ds with
  | nil => exact absurd rfl hne
  | cons c ds =>
    have hc : c.isDigit = true := hd c List.mem_cons_self
    exact skip_cons (isBlank_of_isDigit hc) (ds ++ rest)

theorem takeDigits_append {limit : Nat} (hlimit : ds.length ≤ limit)
    (hrest : ∀ c ∈ rest.head?, c.isDigit = false) : takeDigits limit (ds ++ rest) = some (ds, rest) := by
  have hstop : (rest.take (limit - ds.length)).takeWhile Char.isDigit = [] := by
    cases rest with
    | nil => rw [List.take_nil, List.takeWhile_nil]
    | cons c rest =>
      cases limit - ds.length with
      | zero => rw [List.take_zero, List.takeWhile_nil]
      | succ k =>
        have hc : c.isDigit = false := hrest c rfl
        rw [List.take_succ_cons, List.takeWhile_cons, hc]
        rfl
  have hfront : ((ds ++ rest).take limit).takeWhile Char.isDigit = ds := by
    rw [List.take_append, List.take_of_length_le hlimit]
    rw [List.takeWhile_append_of_pos hd]
    rw [hstop, List.append_nil]
  rw [takeDigits, hfront]
  rw [if_neg hne, List.drop_left]

theorem takeYear_append : takeYear (ds ++ rest) =
    (takeDigits 4 (ds ++ rest)).map fun (ds, rest) => ((digitsValue ds : Int), rest) := by
  unfold takeYear
  rw [skip_append hd hne]
  cases ds with
  | nil => exact absurd rfl hne
  | cons c ds =>
    have hc : c.isDigit = true := hd c List.mem_cons_self
    rw [List.cons_append]
    split
    · next hcons =>
      cases hcons
      exact absurd hc (by decide)
    · next hcons =>
      cases hcons
      exact absurd hc (by decide)
    · rfl

end Digits

theorem takeDigits_padded {limit width n : Nat} {rest : List Char} (hlimit : (padded width n).length ≤ limit)
    (hrest : ∀ c ∈ rest.head?, c.isDigit = false) :
    takeDigits limit (padded width n ++ rest) = some (padded width n, rest) :=
  takeDigits_append (fun _ => isDigit_of_mem_padded) (padded_ne_nil width n) hlimit hrest

theorem takeNumber_padded {width n : Nat} {rest : List Char} (hwidth : 0 < width) (hn : n < Nat.pow 10 width)
    (hrest : ∀ c ∈ rest.head?, c.isDigit = false) :
    takeNumber width (padded width n ++ rest) = some (n, rest) := by
  have hlimit : (padded width n).length ≤ width := Nat.le_of_eq (length_padded hwidth hn)
  unfold takeNumber
  rw [skip_append (fun _ => isDigit_of_mem_padded) (padded_ne_nil width n)]
  rw [takeDigits_padded hlimit hrest]
  dsimp only [Option.map_some]
  rw [digitsValue_padded]

theorem takeYear_minus (cs : List Char) : takeYear ('-' :: cs) =
    (takeDigits cs.length cs).map fun (ds, rest) => (-(digitsValue ds : Int), rest) := rfl

theorem takeYear_plus (cs : List Char) : takeYear ('+' :: cs) =
    (takeDigits cs.length cs).map fun (ds, rest) => ((digitsValue ds : Int), rest) := rfl

theorem takeYear_writeYear (year : Int) {rest : List Char}
    (hrest : ∀ c ∈ rest.head?, c.isDigit = false) :
    takeYear (writeYear year ++ rest) = some (year, rest) := by
  have hsigned : takeDigits (padded 4 year.natAbs ++ rest).length (padded 4 year.natAbs ++ rest) =
      some (padded 4 year.natAbs, rest) := by
    apply takeDigits_padded _ hrest
    rw [List.length_append]
    omega
  unfold writeYear
  split
  · next hyear =>
    have hlength : (padded 4 year.toNat).length = 4 := by
      apply length_padded (by decide)
      exact Nat.lt_succ_of_le (Int.toNat_le.2 hyear.2)
    have hvalue : (year.toNat : Int) = year := by omega
    rw [takeYear_append (fun _ => isDigit_of_mem_padded) (padded_ne_nil 4 year.toNat)]
    rw [takeDigits_padded (Nat.le_of_eq hlength) hrest]
    dsimp only [Option.map_some]
    rw [digitsValue_padded, hvalue]
  · split
    · have hvalue : -(year.natAbs : Int) = year := by omega
      rw [List.cons_append, takeYear_minus, hsigned]
      dsimp only [Option.map_some]
      rw [digitsValue_padded, hvalue]
    · have hvalue : (year.natAbs : Int) = year := by omega
      rw [List.cons_append, takeYear_plus, hsigned]
      dsimp only [Option.map_some]
      rw [digitsValue_padded, hvalue]

theorem takeMark_cons {mark : Char} (h : Blank.isBlank mark = false) (rest : List Char) :
    takeMark mark (mark :: rest) = some rest := by
  unfold takeMark
  rw [skip_cons h]
  dsimp only
  rw [if_pos rfl]

theorem takeFraction_padded {width n : Nat} (hwidth : 0 < width) (hle : width ≤ 9)
    (hn : n < Nat.pow 10 width) :
    takeFraction ('.' :: padded width n ++ ['Z']) = some (n * Nat.pow 10 (9 - width), ['Z']) := by
  have hlength := length_padded hwidth hn
  have htake : takeDigits 9 (padded width n ++ ['Z']) = some (padded width n, ['Z']) := by
    apply takeDigits_padded
    · rw [hlength]
      exact hle
    · simp
  rw [List.cons_append, takeFraction, htake]
  dsimp only [Option.bind_eq_bind, Option.bind_some]
  rw [digitsValue_padded, hlength]
  rfl

theorem takeFraction_writeFraction {n : Nat} (h : n < 1000000000) :
    takeFraction (writeFraction n ++ ['Z']) = some (n, ['Z']) := by
  unfold writeFraction
  split
  · next hzero =>
    rw [hzero]
    rfl
  · split
    · next hmod =>
      have hlt : n / 1000000 < Nat.pow 10 3 := Nat.div_lt_of_lt_mul h
      have hvalue : n / 1000000 * Nat.pow 10 (9 - 3) = n :=
        Nat.div_mul_cancel (Nat.dvd_of_mod_eq_zero hmod)
      rw [takeFraction_padded (by decide) (by decide) hlt]
      rw [hvalue]
    · split
      · next hmod =>
        have hlt : n / 1000 < Nat.pow 10 6 := Nat.div_lt_of_lt_mul h
        have hvalue : n / 1000 * Nat.pow 10 (9 - 6) = n :=
          Nat.div_mul_cancel (Nat.dvd_of_mod_eq_zero hmod)
        rw [takeFraction_padded (by decide) (by decide) hlt]
        rw [hvalue]
      · have hvalue : n * Nat.pow 10 (9 - 9) = n := Nat.mul_one n
        rw [takeFraction_padded (by decide) (by decide) h]
        rw [hvalue]

theorem head?_writeFraction (n : Nat) : ∀ c ∈ (writeFraction n ++ ['Z']).head?, c.isDigit = false := by
  unfold writeFraction
  split
  · simp
  · split
    · simp
    · split <;> simp

theorem isBlank_hyphen : Blank.isBlank '-' = false := by decide

theorem isBlank_colon : Blank.isBlank ':' = false := by decide

theorem takeDate_write {d : Date} (h : d.isValid = true) (rest : List Char) :
    takeDate (writeYear d.year ++ '-' :: padded 2 d.month ++ '-' :: padded 2 d.day ++ 'T' :: rest) =
      some (d, 'T' :: rest) := by
  simp only [Date.isValid, Bool.and_eq_true, decide_eq_true_eq] at h
  have hlast := Calendar.daysInMonth_le d.year d.month
  have hmonth : d.month < 100 := by omega
  have hday : d.day < 100 := by omega
  simp only [takeDate, List.append_assoc, List.cons_append, Option.bind_eq_bind]
  rw [takeYear_writeYear d.year (by simp)]
  dsimp only [Option.bind_some]
  rw [takeMark_cons isBlank_hyphen]
  dsimp only [Option.bind_some]
  rw [takeNumber_padded (by decide) hmonth (by simp)]
  dsimp only [Option.bind_some]
  rw [takeMark_cons isBlank_hyphen]
  dsimp only [Option.bind_some]
  rw [takeNumber_padded (by decide) hday (by simp)]
  rfl

theorem takeClock_write {c : Clock} (h : c.isValid = true) :
    takeClock (padded 2 c.hour ++ ':' :: padded 2 c.minute ++ ':' :: padded 2 c.second ++
      (writeFraction c.nanosecond ++ ['Z'])) = some (c, ['Z']) := by
  simp only [Clock.isValid, Bool.and_eq_true, decide_eq_true_eq] at h
  have hhour : c.hour < 100 := by omega
  have hminute : c.minute < 100 := by omega
  have hsecond : c.second < 100 := by omega
  simp only [takeClock, List.append_assoc, List.cons_append, Option.bind_eq_bind]
  rw [takeNumber_padded (by decide) hhour (by simp)]
  dsimp only [Option.bind_some]
  rw [takeMark_cons isBlank_colon]
  dsimp only [Option.bind_some]
  rw [takeNumber_padded (by decide) hminute (by simp)]
  dsimp only [Option.bind_some]
  rw [takeMark_cons isBlank_colon]
  dsimp only [Option.bind_some]
  rw [takeNumber_padded (by decide) hsecond (head?_writeFraction c.nanosecond)]
  dsimp only [Option.bind_some]
  rw [takeFraction_writeFraction h.2]
  rfl

theorem takeSeparator_cons (rest : List Char) : takeSeparator ('T' :: rest) = some rest := rfl

theorem takeOffset_cons (rest : List Char) : takeOffset ('Z' :: rest) = some (0, rest) := rfl

theorem read?_write (t : Timestamp) : read? (write t) = some t := by
  have hwrite : write t = writeYear t.date.year ++ '-' :: padded 2 t.date.month ++ '-' ::
      padded 2 t.date.day ++ 'T' :: (padded 2 t.clock.hour ++ ':' :: padded 2 t.clock.minute ++
        ':' :: padded 2 t.clock.second ++ (writeFraction t.clock.nanosecond ++ ['Z'])) := by
    simp only [write, List.append_assoc, List.cons_append]
  unfold read?
  rw [hwrite, takeDate_write t.date_valid]
  dsimp only [Option.bind_eq_bind, Option.bind_some]
  rw [takeSeparator_cons]
  dsimp only [Option.bind_some]
  rw [takeClock_write t.clock_valid]
  dsimp only [Option.bind_some]
  rw [skip_cons (by decide), takeOffset_cons]
  exact t.ofLocal?_zero

theorem ofString?_toString (t : Timestamp) : ofString? t.toString = some t := by
  rw [ofString?, toString, String.toList_ofList, read?_write]

end Timestamp

end ChainIndex
