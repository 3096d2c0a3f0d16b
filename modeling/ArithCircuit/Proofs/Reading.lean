import ArithCircuit.Json.Reader
import ArithCircuit.Json.Writer
import ArithCircuit.Proofs.Decimals
import Mathlib.Data.List.Nodup

set_option autoImplicit false

namespace ArithCircuit

namespace Json

-- The values that are read back. Decimals keep their spelling and are left out.
inductive Readable : Json → Prop where
  | null : Readable null
  | bool (value : Bool) : Readable (bool value)
  | natural (value : Nat) : Readable (natural value)
  | string (text : String) : Readable (string text)
  | array {items : List Json} (each : ∀ item ∈ items, Readable item) : Readable (array items)
  | object {fields : List (String × Json)} (distinct : (fields.map (·.1)).Nodup)
      (each : ∀ field ∈ fields, Readable field.2) : Readable (object fields)

def Closes (rest : List Char) : Prop := ∀ c ∈ rest.head?, isNumberCharacter c = false

section Strings

theorem fourHex?_control : ∀ code < 32,
    fourHex? '0' '0' (Nat.digitChar (code / 16)) (Nat.digitChar (code % 16)) = some code := by
  decide

theorem readString_escaped (read : List Char) (c : Char) (rest : List Char) :
    readString read (escaped c ++ rest) = readString (c :: read) rest := by
  unfold escaped
  split_ifs with quote backslash newline carriage tab backspace feed control
  · subst quote
    rfl
  · subst backslash
    rfl
  · subst newline
    rfl
  · subst carriage
    rfl
  · subst tab
    rfl
  · subst backspace
    rfl
  · subst feed
    rfl
  · have code := fourHex?_control c.toNat control
    have high : isHighSurrogate c.toNat = false := by
      rw [isHighSurrogate, decide_eq_false (by omega), Bool.false_and]
    have low : isLowSurrogate c.toNat = false := by
      rw [isLowSurrogate, decide_eq_false (by omega), Bool.false_and]
    simp only [List.cons_append, List.nil_append]
    rw [readString]
    simp [code, high, low]
  · rw [List.singleton_append, readString]
    · simp [control, backslash]
    all_goals simp [quote, backslash]

theorem readString_put (read text rest : List Char) :
    readString read (text.foldr (fun c following => escaped c ++ following) ('"' :: rest)) =
      some (String.ofList (read.reverse ++ text), rest) := by
  induction text generalizing read with
  | nil => rw [List.append_nil, List.foldr_nil, readString]
  | cons c text ih =>
    rw [List.foldr_cons, readString_escaped, ih, List.reverse_cons, List.append_assoc]
    rfl

theorem readString_text (text : String) (rest : List Char) :
    readString [] (text.toList.foldr (fun c following => escaped c ++ following) ('"' :: rest)) =
      some (text, rest) := by
  have spelled := readString_put [] text.toList rest
  rwa [List.reverse_nil, List.nil_append, String.ofList_toList] at spelled

end Strings

section Numbers

theorem isNatural_toDigits (n : Nat) : isNatural (Nat.toDigits 10 n) = true := by
  have digits : ∀ c ∈ Nat.toDigits 10 n, c.isDigit = true :=
    fun c member => Nat.isDigit_of_mem_toDigits (by decide) (by decide) member
  by_cases positive : 0 < n
  · have leading := digits_of_positive positive
    have filled : Nat.toDigits 10 n ≠ [] := Nat.toDigits_ne_nil
    generalize Nat.toDigits 10 n = spelling at digits leading filled
    match spelling with
    | [] => exact absurd rfl filled
    | [digit] => exact digits digit List.mem_cons_self
    | first :: second :: others =>
      have other : first ≠ '0' := fun same => leading (second :: others) (same ▸ rfl)
      simpa [isNatural, other] using digits
  · obtain rfl : n = 0 := by omega
    decide

theorem ofDigits_toDigits (n : Nat) : ofDigits (Nat.toDigits 10 n) = n := by
  have read := @Nat.ofDigitChars_toDigits 10 n (by decide) (by decide)
  rw [Nat.ofDigitChars] at read
  simpa only [ofDigits, Nat.mul_comm] using read

theorem number?_toDigits (n : Nat) : number? (Nat.toDigits 10 n) = some (natural n) := by
  unfold number?
  rw [if_pos (isNatural_toDigits n), ofDigits_toDigits]

theorem isNumberCharacter_of_isDigit {c : Char} (digit : c.isDigit = true) :
    isNumberCharacter c = true := by
  simp [isNumberCharacter, digit]

theorem isBlank_of_isDigit {c : Char} (digit : c.isDigit = true) : isBlank c = false := by
  cases blank : isBlank c with
  | false => rfl
  | true =>
    simp only [isBlank, Bool.or_eq_true, decide_eq_true_eq] at blank
    rcases blank with ((rfl | rfl) | rfl) | rfl <;> contradiction

theorem toDigits_eq_cons (n : Nat) :
    ∃ first others, Nat.toDigits 10 n = first :: others ∧ first.isDigit = true := by
  obtain ⟨first, others, spelled⟩ := List.exists_cons_of_ne_nil (@Nat.toDigits_ne_nil n 10)
  have member : first ∈ Nat.toDigits 10 n := spelled ▸ List.mem_cons_self
  exact ⟨first, others, spelled, Nat.isDigit_of_mem_toDigits (by decide) (by decide) member⟩

theorem split_toDigits (n : Nat) {rest : List Char} (closes : Closes rest) :
    (Nat.toDigits 10 n ++ rest).takeWhile isNumberCharacter = Nat.toDigits 10 n ∧
      (Nat.toDigits 10 n ++ rest).dropWhile isNumberCharacter = rest := by
  have digits : ∀ c ∈ Nat.toDigits 10 n, isNumberCharacter c = true := fun c member =>
    isNumberCharacter_of_isDigit (Nat.isDigit_of_mem_toDigits (by decide) (by decide) member)
  rw [List.takeWhile_append_of_pos digits, List.dropWhile_append_of_pos digits]
  cases rest with
  | nil => simp
  | cons c rest =>
    have other := closes c rfl
    simp [other]

end Numbers

def Starts (text : List Char) : Prop :=
  ∃ first rest, text = first :: rest ∧ isBlank first = false ∧ first ≠ ']'

theorem Readable.starts {value : Json} (readable : Readable value) (rest : List Char) :
    Starts (put value rest) := by
  cases readable with
  | null => exact ⟨_, _, rfl, by decide, by decide⟩
  | bool value => cases value <;> exact ⟨_, _, rfl, by decide, by decide⟩
  | natural value =>
    obtain ⟨first, others, spelled, digit⟩ := toDigits_eq_cons value
    refine ⟨first, others ++ rest, ?_, isBlank_of_isDigit digit, ?_⟩
    · rw [put, spelled, List.cons_append]
    · rintro rfl
      contradiction
  | string text => exact ⟨_, _, rfl, by decide, by decide⟩
  | @array items each =>
    cases items with
    | nil => exact ⟨_, _, rfl, by decide, by decide⟩
    | cons first others => exact ⟨_, _, rfl, by decide, by decide⟩
  | @object fields _ each =>
    cases fields with
    | nil => exact ⟨_, _, rfl, by decide, by decide⟩
    | cons first others => exact ⟨_, _, rfl, by decide, by decide⟩

theorem closes_putItems (items : List Json) (rest : List Char) : Closes (putItems items rest) := by
  cases items <;> · intro c first; cases first; decide

theorem closes_putFields (fields : List (String × Json)) (rest : List Char) :
    Closes (putFields fields rest) := by
  cases fields <;> · intro c first; cases first; decide

theorem lt_length_putPlain {text : String} (filled : 0 < text.toList.length) (rest : List Char) :
    rest.length < (putPlain text rest).length := by
  rw [putPlain, List.length_append]
  omega

theorem lt_length_putString (text : String) (rest : List Char) :
    rest.length + 1 < (putString text rest).length := by
  have chars : ∀ text : List Char, rest.length + 1 ≤
      (text.foldr (fun c following => escaped c ++ following) ('"' :: rest)).length := by
    intro text
    induction text with
    | nil => exact Nat.le_refl _
    | cons c text ih =>
      rw [List.foldr_cons, List.length_append]
      omega
  exact Nat.succ_le_succ (chars text.toList)

theorem lt_length_putItems {items : List Json}
    (longer : ∀ item ∈ items, ∀ rest, rest.length < (put item rest).length) (rest : List Char) :
    rest.length < (putItems items rest).length := by
  induction items with
  | nil => exact Nat.lt_succ_self _
  | cons item others ih =>
    have tail := ih fun other member => longer other (List.mem_cons_of_mem item member)
    have here := longer item List.mem_cons_self (putItems others rest)
    rw [putItems, List.length_cons]
    omega

theorem lt_length_putField {field : String × Json}
    (longer : ∀ rest, rest.length < (put field.2 rest).length) (rest : List Char) :
    rest.length < (putField field rest).length := by
  have value := longer rest
  have name := lt_length_putString field.1 (':' :: put field.2 rest)
  rw [List.length_cons] at name
  rw [putField]
  omega

theorem lt_length_putFields {fields : List (String × Json)}
    (longer : ∀ field ∈ fields, ∀ rest, rest.length < (put field.2 rest).length) (rest : List Char) :
    rest.length < (putFields fields rest).length := by
  induction fields with
  | nil => exact Nat.lt_succ_self _
  | cons field others ih =>
    have tail := ih fun other member => longer other (List.mem_cons_of_mem field member)
    have here := lt_length_putField (longer field List.mem_cons_self) (putFields others rest)
    rw [putFields, List.length_cons]
    omega

theorem Readable.lt_length {value : Json} (readable : Readable value) (rest : List Char) :
    rest.length < (put value rest).length := by
  induction readable generalizing rest with
  | null => exact lt_length_putPlain (by decide) rest
  | bool value => cases value <;> exact lt_length_putPlain (by decide) rest
  | natural value =>
    have filled := List.length_pos_iff.mpr (@Nat.toDigits_ne_nil value 10)
    rw [put, List.length_append]
    omega
  | string text =>
    have longer := lt_length_putString text rest
    rw [put]
    omega
  | @array items _ longer =>
    cases items with
    | nil => exact Nat.lt_add_of_pos_right Nat.two_pos
    | cons first others =>
      have here := longer first List.mem_cons_self (putItems others rest)
      have tail := lt_length_putItems
        (fun item member => longer item (List.mem_cons_of_mem first member)) rest
      rw [put, List.length_cons]
      omega
  | @object fields _ _ longer =>
    cases fields with
    | nil => exact Nat.lt_add_of_pos_right Nat.two_pos
    | cons first others =>
      have here := lt_length_putField (longer first List.mem_cons_self) (putFields others rest)
      have tail := lt_length_putFields
        (fun field member => longer field (List.mem_cons_of_mem first member)) rest
      rw [put, List.length_cons]
      omega

def ReadBack (value : Json) : Prop :=
  ∀ fuel rest, Closes rest → (put value rest).length ≤ fuel + rest.length →
    readValue fuel (put value rest) = some (value, rest)

theorem readItems_step {item : Json} (readable : Readable item) (readBack : ReadBack item)
    {following rest : List Char} (closes : Closes following) (after : rest.length < following.length)
    (read : List Json) {fuel : Nat} (enough : (put item following).length ≤ fuel + rest.length) :
    ∃ fewer, following.length ≤ fewer + rest.length ∧
      readItems fuel read (put item following) =
        match skipBlank following with
        | ',' :: rest => readItems fewer (item :: read) rest
        | ']' :: rest => some (array (item :: read).reverse, rest)
        | _ => none := by
  have here := readable.lt_length following
  obtain ⟨fewer, rfl⟩ := Nat.exists_eq_succ_of_ne_zero (show fuel ≠ 0 by omega)
  refine ⟨fewer, by omega, ?_⟩
  rw [readItems, readBack fewer following closes (by omega)]
  rfl

theorem readItems_put {first : Json} {others : List Json}
    (readable : ∀ item ∈ first :: others, Readable item)
    (readBack : ∀ item ∈ first :: others, ReadBack item) (read : List Json) (fuel : Nat)
    (rest : List Char) (enough : (put first (putItems others rest)).length ≤ fuel + rest.length) :
    readItems fuel read (put first (putItems others rest)) =
      some (array (read.reverse ++ first :: others), rest) := by
  induction others generalizing first read fuel with
  | nil =>
    obtain ⟨fewer, _, step⟩ := readItems_step (readable first List.mem_cons_self)
      (readBack first List.mem_cons_self) (closes_putItems [] rest) (Nat.lt_succ_self _) read enough
    rw [step, ← List.reverse_cons]
    rfl
  | cons second others ih =>
    have tail := lt_length_putItems
      (fun item member => (readable item (List.mem_cons_of_mem first member)).lt_length) rest
    obtain ⟨fewer, left, step⟩ := readItems_step (readable first List.mem_cons_self)
      (readBack first List.mem_cons_self) (closes_putItems (second :: others) rest) tail read enough
    have next := ih (fun item member => readable item (List.mem_cons_of_mem first member))
      (fun item member => readBack item (List.mem_cons_of_mem first member)) (first :: read) fewer
      (Nat.le_of_succ_le left)
    rw [List.reverse_cons, List.append_assoc] at next
    rw [step]
    exact next

theorem setField_append {read others : List (String × Json)} {field : String × Json}
    (distinct : ((read ++ field :: others).map (·.1)).Nodup) :
    setField read field.1 field.2 = read ++ [field] := by
  rw [List.map_append, List.map_cons, List.nodup_append] at distinct
  have kept : read.filter (fun other => other.1 != field.1) = read := by
    refine List.filter_eq_self.mpr fun other member => ?_
    have different := distinct.2.2 other.1 (List.mem_map_of_mem member) field.1 List.mem_cons_self
    simpa using different
  rw [setField, kept]

theorem readFields_step {field : String × Json} (readable : Readable field.2)
    (readBack : ReadBack field.2) {following rest : List Char} (closes : Closes following)
    (after : rest.length < following.length) (read : List (String × Json)) {fuel : Nat}
    (enough : (putField field following).length ≤ fuel + rest.length) :
    ∃ fewer, following.length ≤ fewer + rest.length ∧
      readFields fuel read (putField field following) =
        match skipBlank following with
        | ',' :: rest => readFields fewer (setField read field.1 field.2) rest
        | '}' :: rest => some (object (setField read field.1 field.2), rest)
        | _ => none := by
  obtain ⟨name, value⟩ := field
  dsimp only at readable readBack
  have here : following.length < (put value following).length := readable.lt_length following
  have quoted := lt_length_putString name (':' :: put value following)
  rw [List.length_cons] at quoted
  rw [putField] at enough
  obtain ⟨fewer, rfl⟩ := Nat.exists_eq_succ_of_ne_zero (show fuel ≠ 0 by omega)
  refine ⟨fewer, by omega, ?_⟩
  have opened : skipBlank (putString name (':' :: put value following)) =
      putString name (':' :: put value following) := rfl
  rw [putField, readFields, opened, putString]
  simp only [readString_text, Option.bind_eq_bind, Option.bind_some]
  have reading : readValue fewer (put value following) = some (value, following) :=
    readBack fewer following closes (by omega)
  change (readValue fewer (put value following)).bind _ = _
  rw [reading]
  rfl

theorem readFields_put {first : String × Json} {others : List (String × Json)}
    (readable : ∀ field ∈ first :: others, Readable field.2)
    (readBack : ∀ field ∈ first :: others, ReadBack field.2) (read : List (String × Json))
    (distinct : ((read ++ first :: others).map (·.1)).Nodup) (fuel : Nat) (rest : List Char)
    (enough : (putField first (putFields others rest)).length ≤ fuel + rest.length) :
    readFields fuel read (putField first (putFields others rest)) =
      some (object (read ++ first :: others), rest) := by
  induction others generalizing first read fuel with
  | nil =>
    obtain ⟨fewer, _, step⟩ := readFields_step (readable first List.mem_cons_self)
      (readBack first List.mem_cons_self) (closes_putFields [] rest) (Nat.lt_succ_self _) read enough
    rw [step, setField_append distinct]
    rfl
  | cons second others ih =>
    have tail := lt_length_putFields
      (fun field member => (readable field (List.mem_cons_of_mem first member)).lt_length) rest
    obtain ⟨fewer, left, step⟩ := readFields_step (readable first List.mem_cons_self)
      (readBack first List.mem_cons_self) (closes_putFields (second :: others) rest) tail read enough
    have regrouped : read ++ first :: second :: others = (read ++ [first]) ++ second :: others := by
      rw [List.append_assoc]
      rfl
    have next := ih (fun field member => readable field (List.mem_cons_of_mem first member))
      (fun field member => readBack field (List.mem_cons_of_mem first member)) (read ++ [first])
      (regrouped ▸ distinct) fewer (Nat.le_of_succ_le left)
    rw [step, setField_append distinct, regrouped]
    exact next

-- A value has at least one character, so there is fuel for a step.
theorem Readable.readBack_of {value : Json} (readable : Readable value)
    (step : ∀ fewer rest, Closes rest → (put value rest).length ≤ fewer + 1 + rest.length →
      readValue (fewer + 1) (put value rest) = some (value, rest)) : ReadBack value := by
  intro fuel rest closes enough
  have longer := readable.lt_length rest
  obtain ⟨fewer, rfl⟩ := Nat.exists_eq_succ_of_ne_zero (show fuel ≠ 0 by omega)
  exact step fewer rest closes enough

theorem skipBlank_visible {first : Char} (visible : isBlank first = false) (others : List Char) :
    skipBlank (first :: others) = first :: others :=
  List.dropWhile_cons_of_neg (by simp [visible])

theorem readValue_digit {first : Char} (digit : first.isDigit = true) (others : List Char)
    (fewer : Nat) :
    readValue (fewer + 1) (first :: others) =
      (number? ((first :: others).takeWhile isNumberCharacter)).bind fun number =>
        some (number, (first :: others).dropWhile isNumberCharacter) := by
  rw [readValue, skipBlank_visible (isBlank_of_isDigit digit)]
  -- A digit begins none of the words, strings, arrays and objects, which leaves the last case.
  split
  case h_7 => rfl
  all_goals
    rename_i starts
    cases starts
    contradiction

theorem readBack_natural (value : Nat) : ReadBack (natural value) := by
  refine (Readable.natural value).readBack_of fun fewer rest closes _ => ?_
  obtain ⟨digits, after⟩ := split_toDigits value closes
  obtain ⟨first, others, spelled, digit⟩ := toDigits_eq_cons value
  rw [spelled] at digits after
  rw [put, spelled, List.cons_append, readValue_digit digit, ← List.cons_append, digits, after,
    ← spelled, number?_toDigits]
  rfl

theorem readBack_string (text : String) : ReadBack (string text) := by
  refine (Readable.string text).readBack_of fun fewer rest _ _ => ?_
  change (readString [] _).bind _ = _
  rw [readString_text]
  rfl

theorem readValue_items {first : Char} (visible : isBlank first = false) (other : first ≠ ']')
    (others : List Char) (fewer : Nat) :
    readValue (fewer + 1) ('[' :: first :: others) = readItems fewer [] (first :: others) := by
  have bracket : isBlank '[' = false := by decide
  simp only [readValue, skipBlank_visible bracket, skipBlank_visible visible]
  split
  · rename_i closed
    exact absurd (List.cons.inj closed).1 other
  · rfl

theorem readBack_array {items : List Json} (each : ∀ item ∈ items, Readable item)
    (readBack : ∀ item ∈ items, ReadBack item) : ReadBack (array items) := by
  refine (Readable.array each).readBack_of fun fewer rest _ enough => ?_
  cases items with
  | nil => rfl
  | cons first others =>
    obtain ⟨start, tail, starts, visible, other⟩ :=
      (each first List.mem_cons_self).starts (putItems others rest)
    have read := readItems_put each readBack [] fewer rest
      (by rw [put, List.length_cons] at enough; omega)
    rw [put, starts, readValue_items visible other, ← starts]
    exact read

theorem readBack_object {fields : List (String × Json)} (distinct : (fields.map (·.1)).Nodup)
    (each : ∀ field ∈ fields, Readable field.2) (readBack : ∀ field ∈ fields, ReadBack field.2) :
    ReadBack (object fields) := by
  refine (Readable.object distinct each).readBack_of fun fewer rest _ enough => ?_
  cases fields with
  | nil => rfl
  | cons first others =>
    have read := readFields_put each readBack [] distinct fewer rest
      (by rw [put, List.length_cons] at enough; omega)
    calc readValue (fewer + 1) (put (object (first :: others)) rest)
        = readFields fewer [] (putField first (putFields others rest)) := by
          obtain ⟨name, value⟩ := first
          rfl
      _ = some (object (first :: others), rest) := read

theorem Readable.readBack {value : Json} (readable : Readable value) : ReadBack value := by
  induction readable with
  | null => exact Readable.null.readBack_of fun _ _ _ _ => rfl
  | bool value => exact (Readable.bool value).readBack_of fun _ _ _ _ => by cases value <;> rfl
  | natural value => exact readBack_natural value
  | string text => exact readBack_string text
  | array each readBack => exact readBack_array each readBack
  | object distinct each readBack => exact readBack_object distinct each readBack

theorem parse?_text {value : Json} (readable : Readable value) :
    parse? value.text = some value := by
  have read : readValue ((put value []).length + 1) (put value []) = some (value, []) :=
    readable.readBack _ [] (by rintro c ⟨⟩) (Nat.le_succ _)
  rw [parse?, text, String.toList_ofList]
  simp only [read, Option.bind_eq_bind, Option.bind_some]
  rfl

end Json

end ArithCircuit
