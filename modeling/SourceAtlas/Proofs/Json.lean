import SourceAtlas.Json.Reader
import SourceAtlas.Proofs.Decimal
/-!
Values are read back from their written form. The reader's fuel counts levels and items, and each of
them takes characters, so the length of a text is fuel enough for it.
-/

namespace SourceAtlas.Json

/-- What is written so that it can be told apart: no number but natural ones, and no ill text. -/
inductive IsData : Json → Prop
  | null : IsData null
  | bool (value : Bool) : IsData (bool value)
  | natural (value : Nat) : IsData (natural value)
  | str (text : String) : IsData (str text)
  | arr {items : List Json} (data : ∀ item ∈ items, IsData item) : IsData (arr items)
  | obj {fields : List (String × Json)} (data : ∀ field ∈ fields, IsData field.2) :
      IsData (obj fields)

theorem skipSpace_cons {c : Char} (rest : List Char) (dark : isSpace c = false) :
    skipSpace (c :: rest) = c :: rest := by
  simp [skipSpace, dark]

theorem skipSpace_newLine (level : Nat) (rest : List Char) :
    skipSpace (newLine level ++ rest) = skipSpace rest := by
  have spaces : ∀ count, skipSpace (List.replicate count ' ' ++ rest) = skipSpace rest := by
    intro count
    induction count with
    | zero => rfl
    | succ count ih =>
        rw [List.replicate_succ, List.cons_append]
        simpa [skipSpace, isSpace] using ih
  have broken : ∀ text, skipSpace ('\n' :: text) = skipSpace text := by
    intro text
    simp [skipSpace, isSpace]
  rw [newLine, List.cons_append, broken, spaces]

section Strings

theorem escapeChar_ne_nil (c : Char) : escapeChar c ≠ [] := by
  unfold escapeChar
  repeat' split
  all_goals simp

theorem hexDigit_value {n : Nat} (small : n < 16) : Hex.value? (Hex.digit n) = some n := by
  have all : ∀ n : Fin 16, Hex.value? (Hex.digit n) = some n.val := by decide
  exact all ⟨n, small⟩

theorem readHex4_control {code : Nat} (small : code < 32) (rest : List Char) :
    readHex4 ('0' :: '0' :: Hex.digit (code / 16) :: Hex.digit (code % 16) :: rest) =
      some (code, rest) := by
  have zero : Hex.value? '0' = some 0 := by decide
  have upper := hexDigit_value (n := code / 16) (by omega)
  have lower := hexDigit_value (n := code % 16) (by omega)
  have sum : code / 16 * 16 + code % 16 = code := by omega
  simp [readHex4, Hex.number?, zero, upper, lower, sum]

theorem readUnits_plain (fuel : Nat) {c : Char} (rest : List Char) (noQuote : c ≠ '"')
    (noSlash : c ≠ '\\') (large : ¬ c.toNat < 32) :
    readUnits (fuel + 1) (c :: rest) =
      (readUnits fuel rest).map fun (units, rest) => (.whole c :: units, rest) := by
  rw [readUnits]
  · simp only [noSlash, large, or_self, if_false]
    cases readUnits fuel rest <;> rfl
  · exact noQuote
  · intro other same
    exact absurd same noSlash
  · intro other later same
    exact absurd same noSlash

theorem readUnits_short (fuel : Nat) {c mark : Char} (rest : List Char)
    (short : shortEscape? mark = some c) :
    readUnits (fuel + 1) ('\\' :: mark :: rest) =
      (readUnits fuel rest).map fun (units, rest) => (.whole c :: units, rest) := by
  rw [readUnits]
  · simp only [short]
    cases readUnits fuel rest <;> rfl
  · rintro rfl
    cases short

theorem readUnits_control (fuel : Nat) {c : Char} (rest : List Char) (small : c.toNat < 32) :
    readUnits (fuel + 1) ('\\' :: 'u' :: '0' :: '0' :: Hex.digit (c.toNat / 16) ::
        Hex.digit (c.toNat % 16) :: rest) =
      (readUnits fuel rest).map fun (units, rest) => (.whole c :: units, rest) := by
  have code : Unit16.ofCode c.toNat = .whole c := by
    unfold Unit16.ofCode
    rw [if_neg (by simp; omega), Char.ofNat_toNat]
  rw [readUnits, readHex4_control small]
  simp only [bind, Option.bind, code]
  cases readUnits fuel rest <;> rfl

/-- A written character is read as one unit. -/
theorem readUnits_escapeChar (fuel : Nat) (c : Char) (rest : List Char) :
    readUnits (fuel + 1) (escapeChar c ++ rest) =
      (readUnits fuel rest).map fun (units, rest) => (.whole c :: units, rest) := by
  unfold escapeChar
  split
  · next same => subst same; exact readUnits_short fuel rest rfl
  · next noQuote =>
      split
      · next same => subst same; exact readUnits_short fuel rest rfl
      · next noSlash =>
          split
          · next same => subst same; exact readUnits_short fuel rest rfl
          · split
            · next same => subst same; exact readUnits_short fuel rest rfl
            · split
              · next same => subst same; exact readUnits_short fuel rest rfl
              · split
                · next same => subst same; exact readUnits_short fuel rest rfl
                · split
                  · next same => subst same; exact readUnits_short fuel rest rfl
                  · split
                    · next small => exact readUnits_control fuel rest small
                    · next large => exact readUnits_plain fuel rest noQuote noSlash large

theorem readUnits_escaped {chars : List Char} {fuel : Nat} (enough : chars.length < fuel)
    (rest : List Char) :
    readUnits fuel (chars.flatMap escapeChar ++ '"' :: rest) = some (chars.map .whole, rest) := by
  induction chars generalizing fuel with
  | nil =>
      cases fuel with
      | zero => cases enough
      | succ fuel => simp [readUnits]
  | cons c chars ih =>
      cases fuel with
      | zero => cases enough
      | succ fuel =>
          rw [List.flatMap_cons, List.append_assoc, readUnits_escapeChar,
            ih (Nat.lt_of_succ_lt_succ enough)]
          rfl

theorem joinUnits_whole (chars : List Char) : joinUnits (chars.map .whole) = some chars := by
  induction chars with
  | nil => rfl
  | cons c chars ih => simp [joinUnits, ih]

theorem length_le_escaped (chars : List Char) : chars.length ≤ (chars.flatMap escapeChar).length := by
  induction chars with
  | nil => simp
  | cons c chars ih =>
      have some := List.length_pos_iff.mpr (escapeChar_ne_nil c)
      simp only [List.flatMap_cons, List.length_append, List.length_cons]
      omega

theorem readString_quote (text : String) (rest : List Char) :
    readString (text.toList.flatMap escapeChar ++ '"' :: rest) = some (.str text, rest) := by
  have longer := length_le_escaped text.toList
  unfold readString
  rw [readUnits_escaped (by rw [List.length_append, List.length_cons]; omega)]
  simp [joinUnits_whole]

end Strings

/-- A text that does not carry a number on. -/
def Ends (text : List Char) : Prop :=
  ∀ c rest, text = c :: rest → c.isDigit = false ∧ c ≠ '.' ∧ c ≠ 'e' ∧ c ≠ 'E'

theorem takeWhile_digits {digits rest : List Char} (all : ∀ c ∈ digits, c.isDigit = true)
    (ends : Ends rest) :
    (digits ++ rest).takeWhile Char.isDigit = digits ∧ (digits ++ rest).dropWhile Char.isDigit = rest := by
  have stop : rest.takeWhile Char.isDigit = [] ∧ rest.dropWhile Char.isDigit = rest := by
    cases rest with
    | nil => exact ⟨rfl, rfl⟩
    | cons c rest => simp [(ends c rest rfl).1]
  rw [List.takeWhile_append_of_pos all, List.dropWhile_append_of_pos all, stop.1, stop.2]
  simp

theorem readDigits_digits (n : Nat) {rest : List Char} (ends : Ends rest) :
    readDigits (Decimal.digits n ++ rest) = some (Decimal.digits n, rest) := by
  obtain ⟨taken, left⟩ := takeWhile_digits (fun c => Decimal.isDigit_of_mem_digits (n := n)) ends
  unfold readDigits
  rw [taken, left]
  cases digits : Decimal.digits n with
  | nil => exact absurd digits (Decimal.digits_ne_nil n)
  | cons c later =>
      by_cases zero : c = '0'
      · subst zero
        rw [Decimal.digits_zero_cons digits]
        rfl
      · dsimp only
        split
        · next same => cases same
        · next same => rfl
        · next other same =>
            cases same
            exact absurd rfl zero
        · rfl

theorem readNumber_digits (n : Nat) {rest : List Char} (ends : Ends rest) :
    readNumber (Decimal.digits n ++ rest) = some (.natural n, rest) := by
  have noFraction : readFraction rest = some ([], rest) := by
    unfold readFraction
    split
    · next later => exact absurd rfl (ends _ _ rfl).2.1
    · rfl
  have noExponent : readExponent rest = some ([], rest) := by
    unfold readExponent
    split
    · rfl
    · next mark later =>
        obtain ⟨-, -, small, large⟩ := ends mark later rfl
        rw [if_neg (by simp [small, large])]
  have unsigned : ∀ c later, Decimal.digits n ++ rest = c :: later → c ≠ '-' := by
    rintro c later same rfl
    cases digits : Decimal.digits n with
    | nil => exact absurd digits (Decimal.digits_ne_nil n)
    | cons first front =>
        rw [digits, List.cons_append, List.cons.injEq] at same
        obtain ⟨rfl, -⟩ := same
        have wrong := Decimal.isDigit_of_mem_digits (n := n) (c := '-') (by simp [digits])
        cases wrong
  unfold readNumber
  split
  · next sign later matched =>
      split at matched
      · next front same => exact absurd rfl (unsigned _ _ same)
      · cases matched
        simp only [readDigits_digits n ends, noFraction, noExponent, bind, Option.bind]
        simp [Decimal.value_digits]

/-- How a written value begins: not with white space, and not as a list or a record ends. -/
theorem pretty_head (level : Nat) {json : Json} (data : IsData json) :
    ∃ c rest, pretty level json = c :: rest ∧ isSpace c = false ∧ c ≠ ']' ∧ c ≠ '\x7d' := by
  cases data with
  | null => exact ⟨'n', _, rfl, by decide⟩
  | bool value => cases value <;> exact ⟨_, _, rfl, by decide⟩
  | natural value =>
      cases digits : Decimal.digits value with
      | nil => exact absurd digits (Decimal.digits_ne_nil value)
      | cons c rest =>
          have digit := Decimal.isDigit_of_mem_digits (n := value) (c := c) (by simp [digits])
          refine ⟨c, rest, by simp [pretty, scalar, digits], ?_, ?_, ?_⟩
          · simp only [isSpace, Bool.or_eq_false_iff, beq_eq_false_iff_ne]
            refine ⟨⟨⟨?_, ?_⟩, ?_⟩, ?_⟩ <;> rintro rfl <;> cases digit
          · rintro rfl
            cases digit
          · rintro rfl
            cases digit
  | str text => exact ⟨'"', _, rfl, by decide⟩
  | @arr items data => cases items <;> exact ⟨'[', _, rfl, by decide⟩
  | @obj fields data =>
      cases fields with
      | nil => exact ⟨'\x7b', _, rfl, by decide⟩
      | cons field rest =>
          obtain ⟨key, value⟩ := field
          exact ⟨'\x7b', _, rfl, by decide⟩

theorem ends_newLine (level : Nat) (rest : List Char) : Ends (newLine level ++ rest) := by
  intro c later same
  rw [newLine, List.cons_append, List.cons.injEq] at same
  obtain ⟨rfl, -⟩ := same
  decide

theorem ends_comma (rest : List Char) : Ends (',' :: rest) := by
  intro c later same
  rw [List.cons.injEq] at same
  obtain ⟨rfl, -⟩ := same
  decide

theorem readValue_newLine (fuel level : Nat) (rest : List Char) :
    readValue fuel (newLine level ++ rest) = readValue fuel rest := by
  cases fuel with
  | zero => rfl
  | succ fuel => rw [readValue, readValue, skipSpace_newLine]

/-- That a value is read back at every level, whatever ends the text after it. -/
def ReadsBack (json : Json) : Prop :=
  ∀ level fuel rest, 2 * (pretty level json).length ≤ fuel + 1 → Ends rest →
    readValue fuel (pretty level json ++ rest) = some (json, rest)

theorem readItems_newLine (fuel level : Nat) (rest : List Char) :
    readItems fuel (newLine level ++ rest) = readItems fuel rest := by
  cases fuel with
  | zero => rfl
  | succ fuel => rw [readItems, readItems, readValue_newLine]

theorem readItems_pretty (first : Json) {items : List Json} (level fuel : Nat)
    (back : ∀ item ∈ first :: items, ReadsBack item) (rest : List Char)
    (enough : 2 * ((pretty (level + 1) first).length + (prettyItems level items).length) ≤ fuel)
    (filled : 0 < fuel) :
    readItems fuel (pretty (level + 1) first ++
      (prettyItems level items ++ (newLine level ++ ']' :: rest))) = some (first :: items, rest) := by
  induction items generalizing first fuel with
  | nil =>
      obtain ⟨fuel, rfl⟩ := Nat.exists_eq_succ_of_ne_zero (Nat.ne_of_gt filled)
      simp only [prettyItems, List.length_nil, Nat.add_zero] at enough
      rw [Nat.succ_eq_add_one, readItems, prettyItems, List.nil_append,
        back first (by simp) (level + 1) fuel _ enough (ends_newLine level _)]
      simp only [bind, Option.bind]
      rw [skipSpace_newLine, skipSpace_cons _ (by decide)]
      rfl
  | cons next items ih =>
      obtain ⟨fuel, rfl⟩ := Nat.exists_eq_succ_of_ne_zero (Nat.ne_of_gt filled)
      simp only [prettyItems, List.length_append, List.length_cons] at enough
      have later := ih next fuel
        (fun item member => back item (List.mem_cons_of_mem first member)) (by omega) (by omega)
      rw [Nat.succ_eq_add_one, readItems, prettyItems, List.cons_append, List.cons_append,
        List.cons_append, back first (by simp) (level + 1) fuel _ (by omega) (ends_comma _)]
      simp only [bind, Option.bind]
      rw [skipSpace_cons _ (by decide)]
      simp only [List.append_assoc, readItems_newLine, later]
      rfl

theorem readFields_newLine (fuel level : Nat) (rest : List Char) :
    readFields fuel (newLine level ++ rest) = readFields fuel rest := by
  cases fuel with
  | zero => rfl
  | succ fuel => rw [readFields, readFields, skipSpace_newLine]

theorem readValue_space (fuel : Nat) (rest : List Char) :
    readValue fuel (' ' :: rest) = readValue fuel rest := by
  have skipped : skipSpace (' ' :: rest) = skipSpace rest := by simp [skipSpace, isSpace]
  cases fuel with
  | zero => rfl
  | succ fuel => rw [readValue, readValue, skipped]

/-- The first field of a record is read, and then what follows its value. -/
theorem readFields_field (fuel level : Nat) (key : String) {value : Json} (back : ReadsBack value)
    {rest : List Char} (enough : 2 * (pretty level value).length ≤ fuel + 1) (ends : Ends rest) :
    readFields (fuel + 1) (quote key ++ ':' :: ' ' :: (pretty level value ++ rest)) =
      match skipSpace rest with
      | '\x7d' :: rest => some ([(some key, value)], rest)
      | ',' :: rest => (readFields fuel rest).map fun (fields, rest) =>
          ((some key, value) :: fields, rest)
      | _ => none := by
  have opened : skipSpace (quote key ++ ':' :: ' ' :: (pretty level value ++ rest)) =
      '"' :: (key.toList.flatMap escapeChar ++ '"' :: (':' :: ' ' :: (pretty level value ++ rest))) := by
    rw [quote, List.cons_append, List.cons_append, skipSpace_cons _ (by decide)]
    simp
  rw [readFields, opened]
  simp only [bind, Option.bind, readString_quote]
  rw [skipSpace_cons _ (by decide)]
  simp only [readValue_space, back level fuel rest enough ends]
  cases skipSpace rest with
  | nil => rfl
  | cons c later =>
      by_cases close : c = '\x7d'
      · subst close
        rfl
      · by_cases comma : c = ','
        · subst comma
          cases made : readFields fuel later <;> simp [made, text?]
        · simp [close, comma]

/-- Fields whose values are read back one by one are read back as a record. -/
theorem readFields_pretty (first : String × Json) {fields : List (String × Json)} (level fuel : Nat)
    (back : ∀ field ∈ first :: fields, ReadsBack field.2) (rest : List Char)
    (enough : 2 * ((pretty (level + 1) first.2).length + (prettyFields level fields).length) ≤ fuel)
    (filled : 0 < fuel) :
    readFields fuel (quote first.1 ++ ':' :: ' ' :: (pretty (level + 1) first.2 ++
      (prettyFields level fields ++ (newLine level ++ '\x7d' :: rest)))) =
        some ((first :: fields).map fun field => (some field.1, field.2), rest) := by
  induction fields generalizing first fuel with
  | nil =>
      obtain ⟨fuel, rfl⟩ := Nat.exists_eq_succ_of_ne_zero (Nat.ne_of_gt filled)
      simp only [prettyFields, List.length_nil, Nat.add_zero] at enough
      rw [Nat.succ_eq_add_one, prettyFields, List.nil_append,
        readFields_field fuel (level + 1) first.1 (back first (by simp)) enough (ends_newLine level _),
        skipSpace_newLine, skipSpace_cons _ (by decide)]
      rfl
  | cons next fields ih =>
      obtain ⟨fuel, rfl⟩ := Nat.exists_eq_succ_of_ne_zero (Nat.ne_of_gt filled)
      obtain ⟨key, value⟩ := next
      simp only [prettyFields, List.length_append, List.length_cons] at enough
      have later := ih (key, value) fuel
        (fun field member => back field (List.mem_cons_of_mem first member)) (by simp only; omega)
        (by omega)
      rw [Nat.succ_eq_add_one, prettyFields, List.cons_append, List.cons_append, List.cons_append,
        List.cons_append, List.cons_append,
        readFields_field fuel (level + 1) first.1 (back first (by simp)) (by omega) (ends_comma _),
        skipSpace_cons _ (by decide)]
      simp only [List.append_assoc, List.cons_append, List.nil_append] at later ⊢
      rw [readFields_newLine, later]
      rfl

theorem ofFields_named (fields : List (String × Json)) :
    ofFields (fields.map fun field => (some field.1, field.2)) = .obj fields := by
  have named : (fields.map fun field => ((some field.1, field.2) : Option String × Json)).mapM
      (fun entry => entry.1.map fun name => (name, entry.2)) = some fields := by
    induction fields with
    | nil => rfl
    | cons field rest ih =>
        rw [List.map_cons, List.mapM_cons, ih]
        rfl
  unfold ofFields
  split
  · next found same =>
      have equal : some found = some fields := same.symm.trans named
      rw [Option.some.inj equal]
  · next failed =>
      have equal : none = some fields := failed.symm.trans named
      cases equal

theorem exists_fuel {json : Json} (data : IsData json) {level fuel : Nat}
    (enough : 2 * (pretty level json).length ≤ fuel + 1) : ∃ less, fuel = less + 1 := by
  obtain ⟨c, rest, text, -⟩ := pretty_head level data
  rw [text, List.length_cons] at enough
  exact Nat.exists_eq_succ_of_ne_zero (by omega)

/-- Data is read back from its written form. -/
theorem readsBack {json : Json} (data : IsData json) : ReadsBack json := by
  induction data with
  | null =>
      intro level fuel rest enough ends
      obtain ⟨fuel, rfl⟩ := exists_fuel .null enough
      rfl
  | bool value =>
      intro level fuel rest enough ends
      obtain ⟨fuel, rfl⟩ := exists_fuel (.bool value) enough
      cases value <;> rfl
  | natural value =>
      intro level fuel rest enough ends
      obtain ⟨fuel, rfl⟩ := exists_fuel (.natural value) enough
      obtain ⟨c, later, head, dark, -, -⟩ := pretty_head level (.natural value)
      have digits : Decimal.digits value = c :: later := head
      have read := readNumber_digits value ends
      have digit := Decimal.isDigit_of_mem_digits (n := value) (c := c) (by simp [digits])
      rw [digits, List.cons_append] at read
      rw [readValue, head, List.cons_append, skipSpace_cons _ dark]
      -- a digit begins neither a word, a string, a list nor a record
      split
      · next same => cases same
      · next same => cases same; cases digit
      · next same => cases same; cases digit
      · next same => cases same; cases digit
      · next same => cases same; cases digit
      · next same => cases same; cases digit
      · next same => cases same; cases digit
      · exact read
  | str text =>
      intro level fuel rest enough ends
      obtain ⟨fuel, rfl⟩ := exists_fuel (.str text) enough
      have written : pretty level (.str text) = quote text := rfl
      rw [readValue, written, quote, List.cons_append, List.cons_append,
        skipSpace_cons _ (by decide), List.append_assoc]
      exact readString_quote text rest
  | @arr items data ih =>
      intro level fuel rest enough ends
      obtain ⟨fuel, rfl⟩ := exists_fuel (.arr data) enough
      cases items with
      | nil => rfl
      | cons first items =>
          obtain ⟨c, later, head, dark, other, -⟩ := pretty_head (level + 1) (data first (by simp))
          simp only [pretty, List.length_cons, List.length_append] at enough
          have read := readItems_pretty first level fuel ih rest (by omega)
            (by omega)
          have written : pretty level (.arr (first :: items)) ++ rest =
              '[' :: (newLine (level + 1) ++ (pretty (level + 1) first ++
                (prettyItems level items ++ (newLine level ++ ']' :: rest)))) := by simp [pretty]
          rw [head, List.cons_append] at written read
          rw [readValue, written, skipSpace_cons _ (by decide)]
          simp only [skipSpace_newLine, skipSpace_cons _ dark]
          split
          · next same => cases same; exact absurd rfl other
          · rw [read]
            rfl
  | @obj fields data ih =>
      intro level fuel rest enough ends
      obtain ⟨fuel, rfl⟩ := exists_fuel (.obj data) enough
      cases fields with
      | nil => rfl
      | cons first fields =>
          obtain ⟨key, value⟩ := first
          simp only [pretty, List.length_cons, List.length_append] at enough
          have read := readFields_pretty (key, value) level fuel
            ih rest (by simp only; omega) (by omega)
          have written : pretty level (.obj ((key, value) :: fields)) ++ rest =
              '\x7b' :: (newLine (level + 1) ++ (quote key ++ ':' :: ' ' :: (pretty (level + 1) value ++
                (prettyFields level fields ++ (newLine level ++ '\x7d' :: rest))))) := by simp [pretty]
          have quoted : ∀ text, quote key ++ text = '"' :: (key.toList.flatMap escapeChar ++ '"' :: text) := by
            intro text
            simp [quote]
          rw [quoted] at written read
          rw [readValue, written, skipSpace_cons _ (by decide)]
          simp only [skipSpace_newLine]
          rw [skipSpace_cons _ (by decide)]
          split
          · next same => cases same
          · rw [read, Option.map_some, ofFields_named]

/-- A text that data was written to holds that data and nothing else. -/
theorem parse?_toPretty {json : Json} (data : IsData json) : parse? json.toPretty = some json := by
  have read := readsBack data 0 (2 * (pretty 0 json).length + 2) [] (by omega) (by
    intro c rest same
    cases same)
  rw [List.append_nil] at read
  unfold parse? toPretty
  simp only [String.toList_ofList, read, bind, Option.bind]
  rfl

end SourceAtlas.Json
