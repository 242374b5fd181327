import SourceAtlas.Proofs.Decimal
import SourceAtlas.Timestamp
/-!
Points in time are read back from their written form.
-/

namespace SourceAtlas.Timestamp

/-- White space is skipped to no effect before what is dark. -/
theorem trimLeft_cons {c : Char} (rest : List Char) (dark : Blank.isBlank c = false) :
    Blank.trimLeft (c :: rest) = c :: rest := by
  simp [Blank.trimLeft, dark]

theorem isBlank_of_isDigit {c : Char} (digit : c.isDigit = true) : Blank.isBlank c = false := by
  simp only [Char.isDigit, ge_iff_le, Bool.and_eq_true, decide_eq_true_eq, UInt32.le_iff_toNat_le] at digit
  have low : 48 ≤ c.toNat := digit.1
  have high : c.toNat ≤ 57 := digit.2
  simp only [Blank.isBlank, Bool.or_eq_false_iff, Bool.and_eq_false_iff, decide_eq_false_iff_not,
    beq_eq_false_iff_ne]
  omega

theorem trimLeft_of_digits {digits rest : List Char} (filled : digits ≠ [])
    (all : ∀ c ∈ digits, c.isDigit = true) : Blank.trimLeft (digits ++ rest) = digits ++ rest := by
  cases digits with
  | nil => exact absurd rfl filled
  | cons c later => exact trimLeft_cons _ (isBlank_of_isDigit (all c (by simp)))

theorem takeWhile_take_digits {digits rest : List Char} {limit : Nat}
    (all : ∀ c ∈ digits, c.isDigit = true) (within : digits.length ≤ limit)
    (stops : limit = digits.length ∨ ∀ c later, rest = c :: later → c.isDigit = false) :
    ((digits ++ rest).take limit).takeWhile Char.isDigit = digits := by
  rw [List.take_append, List.take_of_length_le within, List.takeWhile_append_of_pos all]
  have none : (rest.take (limit - digits.length)).takeWhile Char.isDigit = [] := by
    rcases stops with exact_ | stop
    · simp [exact_]
    · cases rest with
      | nil => simp
      | cons c later =>
          cases limit - digits.length with
          | zero => rfl
          | succ count => simp [stop c later rfl]
  rw [none, List.append_nil]

theorem readNumber?_digits {digits rest : List Char} {limit : Nat} (filled : digits ≠ [])
    (all : ∀ c ∈ digits, c.isDigit = true) (within : digits.length ≤ limit)
    (stops : limit = digits.length ∨ ∀ c later, rest = c :: later → c.isDigit = false) :
    readNumber? limit (digits ++ rest) = some (Decimal.value digits, rest) := by
  unfold readNumber?
  rw [takeWhile_take_digits all within stops]
  simp [filled]

theorem readField?_padded {n : Nat} (small : n < 100) (rest : List Char) :
    readField? (Decimal.padded 2 n ++ rest) = some (n, rest) := by
  have all := fun c => Decimal.isDigit_of_mem_padded 2 n (c := c)
  have wide : (Decimal.padded 2 n).length = 2 := Decimal.length_padded (by decide) (by simpa using small)
  rw [readField?, trimLeft_of_digits (Decimal.padded_ne_nil 2 n) all,
    readNumber?_digits (Decimal.padded_ne_nil 2 n) all (by omega) (Or.inl wide.symm),
    Decimal.value_padded]

theorem afterMark?_cons {mark : Char} (rest : List Char) (dark : Blank.isBlank mark = false) :
    afterMark? mark (mark :: rest) = some rest := by
  simp [afterMark?, trimLeft_cons rest dark]

theorem readYear?_writeYear (year : Int) (rest : List Char) :
    readYear? (writeYear year ++ '-' :: rest) = some (year, '-' :: rest) := by
  have all := fun c => Decimal.isDigit_of_mem_padded 4 year.natAbs (c := c)
  have filled := Decimal.padded_ne_nil 4 year.natAbs
  have stops : ∀ c later, '-' :: rest = c :: later → c.isDigit = false := by
    rintro c later same
    cases same
    rfl
  unfold writeYear
  split
  · next negative =>
      rw [readYear?, List.cons_append, trimLeft_cons _ (by decide)]
      simp only
      rw [readNumber?_digits filled all (by simp) (Or.inr stops), Decimal.value_padded]
      simp only [Option.map_some]
      congr
      omega
  · next natural =>
      split
      · next four =>
          have wide : (Decimal.padded 4 year.natAbs).length = 4 :=
            Decimal.length_padded (by decide) (by omega)
          have read : readNumber? 4 (Decimal.padded 4 year.natAbs ++ '-' :: rest) =
              some (Decimal.value (Decimal.padded 4 year.natAbs), '-' :: rest) :=
            readNumber?_digits filled all (by omega) (Or.inl wide.symm)
          rw [readYear?, trimLeft_of_digits filled all]
          cases text : Decimal.padded 4 year.natAbs with
          | nil => exact absurd text filled
          | cons c later =>
              have digit := all c (by simp [text])
              rw [text, List.cons_append] at read
              rw [List.cons_append]
              -- a padded number begins with a digit and not with a sign
              split
              · next same => cases same; cases digit
              · next same => cases same; cases digit
              · rw [read, ← text, Decimal.value_padded]
                simp only [Option.map_some]
                congr
                omega
      · next large =>
          rw [readYear?, List.cons_append, trimLeft_cons _ (by decide)]
          simp only
          rw [readNumber?_digits filled all (by simp) (Or.inr stops), Decimal.value_padded]
          simp only [Option.map_some]
          congr
          omega

theorem readFraction?_padded {width n : Nat} (wide : 0 < width) (short : width ≤ 9)
    (fits : n < 10 ^ width) :
    readFraction? ('.' :: Decimal.padded width n ++ ['Z']) = some (n * Nat.pow 10 (9 - width), ['Z']) := by
  have all := fun c => Decimal.isDigit_of_mem_padded width n (c := c)
  have length := Decimal.length_padded wide fits
  have filled := Decimal.padded_ne_nil width n
  have stops : ∀ c later, ['Z'] = c :: later → c.isDigit = false := by
    rintro c later same
    cases same
    rfl
  have number : readNumber? 9 (Decimal.padded width n ++ ['Z']) =
      some (Decimal.value (Decimal.padded width n), ['Z']) :=
    readNumber?_digits filled all (by omega) (Or.inr stops)
  have taken : ((Decimal.padded width n ++ ['Z']).take 9).takeWhile Char.isDigit =
      Decimal.padded width n := takeWhile_take_digits all (by omega) (Or.inr stops)
  rw [List.cons_append, readFraction?]
  simp only [number, bind, Option.bind, taken, Decimal.value_padded, length, List.drop_left']
  rfl

/-- A fraction is written with three, six or nine digits, and each of them counts when it is read. -/
theorem readFraction?_writeFraction {nanos : Nat} (small : nanos < 1000000000) :
    readFraction? (writeFraction nanos ++ ['Z']) = some (nanos, ['Z']) := by
  unfold writeFraction
  split
  · next zero =>
      subst zero
      rfl
  · split
    · next millis =>
        rw [readFraction?_padded (by decide) (by decide) (by omega)]
        simp only [Option.some.injEq, Prod.mk.injEq, and_true]
        show nanos / 1000000 * 1000000 = nanos
        omega
    · split
      · next micros =>
          rw [readFraction?_padded (by decide) (by decide) (by omega)]
          simp only [Option.some.injEq, Prod.mk.injEq, and_true]
          show nanos / 1000 * 1000 = nanos
          omega
      · rw [readFraction?_padded (by decide) (by decide) (by omega)]
        simp only [Option.some.injEq, Prod.mk.injEq, and_true]
        show nanos * 1 = nanos
        omega

theorem readOffset?_utc : readOffset? (Blank.trimLeft ['Z']) = some (0, []) := by decide

theorem atOffset_zero {fields : TimeFields} (hours : fields.hour < 24) (minutes : fields.minute < 60) :
    fields.atOffset 0 = fields := by
  unfold TimeFields.atOffset
  have early : ¬ ((fields.hour : Int) * 60 + fields.minute - 0 < 0) := by omega
  have late : ¬ ((1440 : Int) ≤ fields.hour * 60 + fields.minute - 0) := by omega
  simp only [early, late, if_false]
  have total : ((fields.hour : Int) * 60 + fields.minute - 0).toNat = fields.hour * 60 + fields.minute := by
    omega
  rw [total]
  have hour : (fields.hour * 60 + fields.minute) / 60 = fields.hour := by omega
  have minute : (fields.hour * 60 + fields.minute) % 60 = fields.minute := by omega
  rw [hour, minute]

/-- A point in time is read back from its written form. -/
theorem ofText?_toText (time : Timestamp) : ofText? time.toText = some time := by
  obtain ⟨fields, valid⟩ := time
  have bounds := valid
  simp only [TimeFields.isValid, Bool.and_eq_true, decide_eq_true_eq] at bounds
  obtain ⟨⟨⟨⟨⟨⟨⟨⟨⟨-, -⟩, -⟩, month⟩, -⟩, day⟩, hour⟩, minute⟩, second⟩, nanos⟩ := bounds
  have days : fields.day < 100 := by
    have most : TimeFields.daysIn fields.year fields.month ≤ 31 := by
      unfold TimeFields.daysIn
      repeat' split
      all_goals omega
    omega
  have there : ofFields? fields = some ⟨fields, valid⟩ := dif_pos valid
  have dash := fun rest => afterMark?_cons rest (show Blank.isBlank '-' = false by decide)
  have colon := fun rest => afterMark?_cons rest (show Blank.isBlank ':' = false by decide)
  have readMonth := readField?_padded (n := fields.month) (by omega)
  have readDay := readField?_padded days
  have readHour := readField?_padded (n := fields.hour) (by omega)
  have readMinute := readField?_padded (n := fields.minute) (by omega)
  have readSecond := readField?_padded (n := fields.second) (by omega)
  have zone := readOffset?_utc
  unfold ofText? toText writeDate writeClock
  simp only [String.toList_ofList, List.append_assoc, List.cons_append, bind, Option.bind,
    readYear?_writeYear, dash, colon, readMonth, readDay, readHour, readMinute, readSecond,
    readFraction?_writeFraction nanos, zone, there, atOffset_zero hour minute]
  simp [Blank.trimLeft]

end SourceAtlas.Timestamp
