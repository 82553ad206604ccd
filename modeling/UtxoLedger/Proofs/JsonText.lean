import UtxoLedger.Json.Form
import UtxoLedger.Proofs.Text
import Mathlib.Data.List.Basic

/-!
JSON values and their text. What the forms of the ledger consist of are plain values: texts, whole
numbers of 64 bits, and arrays and objects of them. A plain value is read back from its compact text,
and it can be kept for later if there is room for its nesting.
-/

namespace UtxoLedger.Json

/-! ### Numbers -/

theorem decimal?_digitChar : ∀ d < 10, decimal? (Nat.digitChar d) = some d := by
  decide

/-- Text that does not go on with a number before it. -/
def Ends : List Char → Prop
  | [] => True
  | c :: _ => decimal? c = none ∧ c ≠ '.' ∧ c ≠ 'e' ∧ c ≠ 'E'

section Number

variable {rest : List Char}

theorem digits_append {ds : List Nat} (hds : ∀ d ∈ ds, d < 10) (hrest : Ends rest) :
    digits (ds.map Nat.digitChar ++ rest) = (ds, rest) := by
  induction ds with
  | nil =>
    cases rest with
    | nil => rfl
    | cons c rest => simp [digits, hrest.1]
  | cons d ds ih =>
    obtain ⟨hd, hds⟩ := List.forall_mem_cons.1 hds
    simp [digits, decimal?_digitChar d hd, ih hds]

/-- The decimal digits of a number, the first of which is zero for zero only. -/
structure IsDecimal (n : Nat) (ds : List Nat) : Prop where
  text : Nat.toDigits 10 n = ds.map Nat.digitChar
  lt : ∀ d ∈ ds, d < 10
  value : ofDecimal ds = n
  head : ∃ d more, ds = d :: more ∧ (d = 0 → n = 0 ∧ more = [])

theorem exists_isDecimal (n : Nat) : ∃ ds, IsDecimal n ds := by
  induction n using Nat.strongRecOn with
  | _ n ih =>
    by_cases hn : n < 10
    · refine ⟨[n], Nat.toDigits_of_lt_base hn, by simpa using hn, ?_, n, [], rfl, fun h => ⟨h, rfl⟩⟩
      simp [ofDecimal]
    · obtain ⟨ds, htext, hlt, hvalue, d, more, rfl, hzero⟩ := ih (n / 10) (by omega)
      refine ⟨d :: more ++ [n % 10], ?_, ?_, ?_, d, more ++ [n % 10], rfl, fun h => ?_⟩
      · rw [Nat.toDigits_of_base_le (by decide) (Nat.le_of_not_lt hn), htext, List.map_append]
        rfl
      · intro e he
        rcases List.mem_append.1 he with he | he
        · exact hlt e he
        · obtain rfl := List.mem_singleton.1 he
          omega
      · rw [ofDecimal] at hvalue
        rw [ofDecimal, List.foldl_append, hvalue]
        exact Nat.div_add_mod n 10
      · have := (hzero h).1
        omega

theorem parseInteger_toDigits (n : Nat) (hrest : Ends rest) :
    parseInteger (Nat.toDigits 10 n ++ rest) = some (n, rest) := by
  obtain ⟨ds, htext, hlt, rfl, d, more, rfl, hzero⟩ := exists_isDecimal n
  rw [parseInteger, htext, digits_append hlt hrest]
  cases d with
  | zero =>
    obtain ⟨-, rfl⟩ := hzero rfl
    rfl
  | succ d => cases more <;> rfl

theorem parseFraction_of_ends (hrest : Ends rest) : parseFraction rest = some ([], rest) := by
  unfold parseFraction
  split
  · exact absurd rfl hrest.2.1
  · rfl

theorem parseExponent_of_ends (hrest : Ends rest) : parseExponent rest = some (none, rest) := by
  unfold parseExponent
  split
  all_goals first | rfl | exact absurd rfl hrest.2.2.1 | exact absurd rfl hrest.2.2.2

/-- The first character of a number is a digit. -/
theorem exists_toDigits_eq (n : Nat) : ∃ d < 10, ∃ more, Nat.toDigits 10 n = Nat.digitChar d :: more := by
  obtain ⟨ds, htext, hlt, -, d, more, rfl, -⟩ := exists_isDecimal n
  exact ⟨d, hlt d List.mem_cons_self, _, htext⟩

theorem chars_ofNat (n : Nat) : (Number.ofNat n).chars = Nat.toDigits 10 n := by
  simp [Number.chars, Number.ofNat]

theorem parseNumber_ofNat (n : Nat) (hrest : Ends rest) :
    parseNumber ((Number.ofNat n).chars ++ rest) = some (.ofNat n, rest) := by
  have hunsigned : parseUnsigned false (Nat.toDigits 10 n ++ rest) = some (.ofNat n, rest) := by
    simp only [parseUnsigned, parseInteger_toDigits n hrest, parseFraction_of_ends hrest,
      parseExponent_of_ends hrest, Option.bind_eq_bind, Option.bind_some]
    rfl
  obtain ⟨d, hd, more, htext⟩ := exists_toDigits_eq n
  have hsign : Nat.digitChar d ≠ '-' := Nat.digitChar_ne '-' (by decide)
  rw [chars_ofNat, ← hunsigned, htext, List.cons_append, parseNumber]
  rintro cs hcs
  exact hsign (List.cons.inj hcs).1

end Number

/-! ### Strings -/

theorem hexDigit?_digit : ∀ n < 16, hexDigit? (Hex.digit n) = some n := by
  decide

section Text

variable (done : List Char) (broken : Bool) (rest : List Char)

theorem parseStringFrom_letter {letter c : Char} (hletter : letter ≠ 'u')
    (h : unescape? letter = some c) :
    parseStringFrom done broken ('\\' :: letter :: rest) = parseStringFrom (c :: done) broken rest := by
  rw [parseStringFrom.eq_def]
  simp [hletter, h]

theorem parseStringFrom_control {c : Char} (hc : c.toNat < 0x20) :
    parseStringFrom done broken ('\\' :: 'u' :: '0' :: '0' :: Hex.digit (c.toNat / 16) ::
      Hex.digit (c.toNat % 16) :: rest) = parseStringFrom (c :: done) broken rest := by
  have hcode : hex4? '0' '0' (Hex.digit (c.toNat / 16)) (Hex.digit (c.toNat % 16)) =
      some c.toNat := by
    have hzero : hexDigit? '0' = some 0 := rfl
    simp only [hex4?, hzero, hexDigit?_digit (c.toNat / 16) (by omega),
      hexDigit?_digit (c.toNat % 16) (by omega), Option.bind_eq_bind, Option.bind_some]
    exact congrArg some (by omega)
  have hhigh : isHighSurrogate c.toNat = false := by
    rw [isHighSurrogate, Bool.and_eq_false_iff, decide_eq_false_iff_not]
    omega
  have hlow : isLowSurrogate c.toNat = false := by
    rw [isLowSurrogate, Bool.and_eq_false_iff, decide_eq_false_iff_not]
    omega
  rw [parseStringFrom.eq_def]
  simp [hcode, hhigh, hlow]

theorem parseStringFrom_self {c : Char} (hquote : c ≠ '"') (hslash : c ≠ '\\')
    (hc : ¬c.toNat < 0x20) :
    parseStringFrom done broken (c :: rest) = parseStringFrom (c :: done) broken rest := by
  rw [parseStringFrom.eq_def]
  simp [hslash, hc]

/-- What is written for a character is read as this character. -/
theorem parseStringFrom_escape (c : Char) :
    parseStringFrom done broken (escape c ++ rest) = parseStringFrom (c :: done) broken rest := by
  unfold escape
  split_ifs with hquote hslash hback hfeed hnewline hreturn htab hcontrol
  · subst hquote
    exact parseStringFrom_letter _ _ _ (by decide) rfl
  · subst hslash
    exact parseStringFrom_letter _ _ _ (by decide) rfl
  · subst hback
    exact parseStringFrom_letter _ _ _ (by decide) rfl
  · subst hfeed
    exact parseStringFrom_letter _ _ _ (by decide) rfl
  · subst hnewline
    exact parseStringFrom_letter _ _ _ (by decide) rfl
  · subst hreturn
    exact parseStringFrom_letter _ _ _ (by decide) rfl
  · subst htab
    exact parseStringFrom_letter _ _ _ (by decide) rfl
  · exact parseStringFrom_control _ _ _ hcontrol
  · exact parseStringFrom_self _ _ _ hquote hslash hcontrol

theorem parseStringFrom_escapes (chars : List Char) :
    parseStringFrom done broken (chars.flatMap escape ++ rest) =
      parseStringFrom (chars.reverse ++ done) broken rest := by
  induction chars generalizing done with
  | nil => rfl
  | cons c chars ih =>
    rw [List.flatMap_cons, List.append_assoc, parseStringFrom_escape, ih, List.reverse_cons,
      List.append_assoc, List.singleton_append]

theorem parseString_escapes (text : String) :
    parseString (text.toList.flatMap escape ++ '"' :: rest) = some (some text, rest) := by
  rw [parseString, parseStringFrom_escapes, List.append_nil, parseStringFrom]
  simp

end Text

/-! ### Values -/

/-- A value of texts and whole numbers of 64 bits, nested at most `levels` deep. -/
inductive Plain : (levels : Nat) → Value → Prop
  | null {levels : Nat} : Plain levels .null
  | bool {levels : Nat} (b : Bool) : Plain levels (.bool b)
  | word {levels n : Nat} : n < UInt64.size → Plain levels (ofNat n)
  | text {levels : Nat} (s : String) : Plain levels (.string (some s))
  | array {levels : Nat} {elements : List Value} :
      (∀ v ∈ elements, Plain levels v) → Plain (levels + 1) (.array elements)
  | object {levels : Nat} {fields : List (String × Value)} :
      (∀ field ∈ fields, Plain levels field.2) → Plain (levels + 1) (ofFields fields)

/-- A value is read from its text, where that ends and with two steps for each character. -/
def IsRead (v : Value) : Prop :=
  ∀ fuel rest, 2 * v.chars.length ≤ fuel → Ends rest → parseValue fuel (v.chars ++ rest) = some (v, rest)

/-- It is enough to read a value behind its first character. -/
theorem IsRead.of_cons {v : Value} {c : Char} {cs : List Char} (hchars : v.chars = c :: cs)
    (h : ∀ fuel rest, 2 * cs.length < fuel → Ends rest →
      parseValue (fuel + 1) (c :: (cs ++ rest)) = some (v, rest)) : IsRead v := by
  intro fuel rest hfuel hrest
  rw [hchars, List.length_cons] at hfuel
  obtain ⟨fuel, rfl⟩ : ∃ fewer, fuel = fewer + 1 := ⟨fuel - 1, by omega⟩
  rw [hchars, List.cons_append]
  exact h fuel rest (by omega) hrest

/-- The text of a plain value begins with a character that is not white space and closes no bracket. -/
theorem Plain.exists_chars_eq {levels : Nat} {v : Value} (h : Plain levels v) :
    ∃ c more, v.chars = c :: more ∧ isSpace c = false ∧ c ≠ ']' := by
  cases h with
  | null => exact ⟨_, _, rfl, by decide⟩
  | bool b => cases b <;> exact ⟨_, _, rfl, by decide⟩
  | @word _ n _ =>
    obtain ⟨d, hd, more, htext⟩ := exists_toDigits_eq n
    refine ⟨Nat.digitChar d, more, (chars_ofNat n).trans htext, ?_⟩
    clear htext
    revert d
    decide
  | text s => exact ⟨_, _, rfl, by decide⟩
  | array _ => exact ⟨_, _, rfl, by decide⟩
  | object _ => exact ⟨_, _, rfl, by decide⟩

theorem skipSpace_cons {c : Char} (h : isSpace c = false) (cs : List Char) :
    skipSpace (c :: cs) = c :: cs := by
  rw [skipSpace, List.dropWhile_cons_of_neg]
  simp [h]

theorem parseValue_digit (fuel : Nat) {d : Nat} (hd : d < 10) (cs : List Char) :
    parseValue (fuel + 1) (Nat.digitChar d :: cs) =
      (parseNumber (Nat.digitChar d :: cs)).map fun (n, rest) => (.number n, rest) :=
  match d, hd with
  | 0, _ | 1, _ | 2, _ | 3, _ | 4, _ | 5, _ | 6, _ | 7, _ | 8, _ | 9, _ => rfl

theorem isRead_ofNat (n : Nat) : IsRead (ofNat n) := by
  obtain ⟨d, hd, more, htext⟩ := exists_toDigits_eq n
  have hchars : (ofNat n).chars = Nat.digitChar d :: more := (chars_ofNat n).trans htext
  refine .of_cons hchars fun fuel rest _ hrest => ?_
  have hnumber := parseNumber_ofNat n hrest
  rw [chars_ofNat, htext, List.cons_append] at hnumber
  rw [parseValue_digit fuel hd, hnumber]
  rfl

theorem isRead_text (s : String) : IsRead (.string (some s)) := by
  have hchars : (Value.string (some s)).chars = '"' :: (s.toList.flatMap escape ++ ['"']) := rfl
  refine .of_cons hchars fun fuel rest _ _ => ?_
  have hstep : ∀ cs, parseValue (fuel + 1) ('"' :: cs) =
      (parseString cs).map fun e => (.string e.1, e.2) := fun _ => rfl
  rw [hstep, List.append_assoc, List.singleton_append, parseString_escapes]
  rfl

/-! ### Arrays -/

theorem ends_of_mem {c : Char} (h : c ∈ [',', ']', '\x7d']) (rest : List Char) : Ends (c :: rest) := by
  simp only [List.mem_cons, List.not_mem_nil, or_false] at h
  rcases h with rfl | rfl | rfl
  all_goals exact ⟨rfl, by decide, by decide, by decide⟩

theorem elementTexts_eq (elements : List Value) :
    Value.elementTexts elements = elements.map Value.chars := by
  induction elements with
  | nil => rfl
  | cons v elements ih => rw [Value.elementTexts, ih, List.map_cons]

theorem parseElements_last {fuel : Nat} {v : Value} (hv : IsRead v)
    (hfuel : 2 * v.chars.length ≤ fuel) (done : List Value) (rest : List Char) :
    parseElements (fuel + 1) done (v.chars ++ ']' :: rest) =
      some (.array (done.reverse ++ [v]), rest) := by
  rw [parseElements, hv fuel _ hfuel (ends_of_mem (by decide) rest), ← List.reverse_cons]
  rfl

theorem parseElements_next {fuel : Nat} {v : Value} (hv : IsRead v)
    (hfuel : 2 * v.chars.length ≤ fuel) (done : List Value) (rest : List Char) :
    parseElements (fuel + 1) done (v.chars ++ ',' :: rest) =
      parseElements fuel (v :: done) rest := by
  rw [parseElements, hv fuel _ hfuel (ends_of_mem (by decide) rest)]
  rfl

theorem parseElements_commaSeparated {first : Value} {elements : List Value}
    (hread : ∀ v ∈ first :: elements, IsRead v) {fuel : Nat} (done : List Value) (rest : List Char)
    (hfuel : 2 * (commaSeparated ((first :: elements).map Value.chars)).length < fuel) :
    parseElements fuel done (commaSeparated ((first :: elements).map Value.chars) ++ ']' :: rest) =
      some (.array (done.reverse ++ first :: elements), rest) := by
  induction elements generalizing first fuel done with
  | nil =>
    obtain ⟨fuel, rfl⟩ : ∃ fewer, fuel = fewer + 1 := ⟨fuel - 1, by omega⟩
    exact parseElements_last (hread first List.mem_cons_self) (Nat.le_of_lt_succ hfuel) done rest
  | cons second elements ih =>
    obtain ⟨fuel, rfl⟩ : ∃ fewer, fuel = fewer + 1 := ⟨fuel - 1, by omega⟩
    have htexts : commaSeparated ((first :: second :: elements).map Value.chars) =
        first.chars ++ ',' :: commaSeparated ((second :: elements).map Value.chars) := rfl
    rw [htexts, List.length_append, List.length_cons] at hfuel
    rw [htexts, List.append_assoc, List.cons_append,
      parseElements_next (hread first List.mem_cons_self) (by omega),
      ih (fun v hv => hread v (List.mem_cons_of_mem _ hv)) _ (by omega), List.reverse_cons,
      List.append_assoc, List.singleton_append]

theorem isRead_array {levels : Nat} {elements : List Value} (hplain : ∀ v ∈ elements, Plain levels v)
    (hread : ∀ v ∈ elements, IsRead v) : IsRead (.array elements) := by
  have hchars : (Value.array elements).chars =
      '[' :: (commaSeparated (elements.map Value.chars) ++ [']']) := by
    rw [Value.chars, elementTexts_eq]
  refine .of_cons hchars fun fuel rest hfuel _ => ?_
  rw [List.length_append, List.length_singleton] at hfuel
  rw [List.append_assoc, List.singleton_append]
  cases elements with
  | nil => rfl
  | cons first elements =>
    obtain ⟨c, more, hfirst, hspace, hclose⟩ := (hplain first List.mem_cons_self).exists_chars_eq
    have hbegin : ∃ cs, commaSeparated ((first :: elements).map Value.chars) ++ ']' :: rest =
        c :: cs := by
      cases elements <;> simp [commaSeparated, hfirst]
    obtain ⟨cs, hbegin⟩ := hbegin
    have hstep : parseValue (fuel + 1) ('[' :: c :: cs) = parseElements fuel [] (c :: cs) := by
      rw [parseValue, skipSpace_cons (by decide)]
      simp only [skipSpace_cons hspace]
      split
      · next heq => exact absurd (List.cons.inj heq).1 hclose
      · rfl
    rw [hbegin, hstep, ← hbegin, parseElements_commaSeparated hread [] rest (by omega)]
    rfl

/-! ### Objects -/

/-- The text of a field: its name, a colon and its value. -/
def fieldText (field : String × Value) : List Char :=
  quote (some field.1) ++ ':' :: field.2.chars

theorem fieldTexts_eq (fields : List (String × Value)) :
    Value.fieldTexts (fields.map fun e => (some e.1, e.2)) = fields.map fieldText := by
  induction fields with
  | nil => rfl
  | cons field fields ih => rw [List.map_cons, Value.fieldTexts, ih, List.map_cons, fieldText]

theorem parseFields_name (fuel : Nat) (done : List (Literal × Value)) (field : String × Value)
    (rest : List Char) : parseFields (fuel + 1) done (fieldText field ++ rest) =
      match parseValue fuel (field.2.chars ++ rest) with
      | none => none
      | some (v, rest) =>
        match skipSpace rest with
        | ',' :: rest => parseFields fuel ((some field.1, v) :: done) rest
        | '\x7d' :: rest => some (.object ((some field.1, v) :: done).reverse, rest)
        | _ => none := by
  have htext : fieldText field ++ rest =
      '"' :: (field.1.toList.flatMap escape ++ '"' :: ':' :: (field.2.chars ++ rest)) := by
    simp [fieldText, quote]
  rw [htext, parseFields, skipSpace_cons (by decide)]
  simp only [parseString_escapes]
  rfl

theorem parseFields_last {fuel : Nat} {field : String × Value} (hv : IsRead field.2)
    (hfuel : 2 * field.2.chars.length ≤ fuel) (done : List (Literal × Value)) (rest : List Char) :
    parseFields (fuel + 1) done (fieldText field ++ '\x7d' :: rest) =
      some (.object (done.reverse ++ [(some field.1, field.2)]), rest) := by
  rw [parseFields_name, hv fuel _ hfuel (ends_of_mem (by decide) rest), ← List.reverse_cons]
  rfl

theorem parseFields_next {fuel : Nat} {field : String × Value} (hv : IsRead field.2)
    (hfuel : 2 * field.2.chars.length ≤ fuel) (done : List (Literal × Value)) (rest : List Char) :
    parseFields (fuel + 1) done (fieldText field ++ ',' :: rest) =
      parseFields fuel ((some field.1, field.2) :: done) rest := by
  rw [parseFields_name, hv fuel _ hfuel (ends_of_mem (by decide) rest)]
  rfl

theorem length_fieldText (field : String × Value) :
    field.2.chars.length ≤ (fieldText field).length := by
  rw [fieldText, List.length_append, List.length_cons]
  omega

theorem parseFields_commaSeparated {first : String × Value} {fields : List (String × Value)}
    (hread : ∀ field ∈ first :: fields, IsRead field.2) {fuel : Nat} (done : List (Literal × Value))
    (rest : List Char)
    (hfuel : 2 * (commaSeparated ((first :: fields).map fieldText)).length < fuel) :
    parseFields fuel done (commaSeparated ((first :: fields).map fieldText) ++ '\x7d' :: rest) =
      some (.object (done.reverse ++ (first :: fields).map fun e => (some e.1, e.2)), rest) := by
  induction fields generalizing first fuel done with
  | nil =>
    obtain ⟨fuel, rfl⟩ : ∃ fewer, fuel = fewer + 1 := ⟨fuel - 1, by omega⟩
    have hlength : 2 * (fieldText first).length < fuel + 1 := hfuel
    have := length_fieldText first
    exact parseFields_last (hread first List.mem_cons_self) (by omega) done rest
  | cons second fields ih =>
    obtain ⟨fuel, rfl⟩ : ∃ fewer, fuel = fewer + 1 := ⟨fuel - 1, by omega⟩
    have htexts : commaSeparated ((first :: second :: fields).map fieldText) =
        fieldText first ++ ',' :: commaSeparated ((second :: fields).map fieldText) := rfl
    have := length_fieldText first
    rw [htexts, List.length_append, List.length_cons] at hfuel
    rw [htexts, List.append_assoc, List.cons_append,
      parseFields_next (hread first List.mem_cons_self) (by omega),
      ih (fun field hfield => hread field (List.mem_cons_of_mem _ hfield)) _ (by omega),
      List.reverse_cons, List.append_assoc, List.singleton_append]
    rfl

theorem isRead_ofFields {fields : List (String × Value)}
    (hread : ∀ field ∈ fields, IsRead field.2) : IsRead (ofFields fields) := by
  have hchars : (ofFields fields).chars =
      '\x7b' :: (commaSeparated (fields.map fieldText) ++ ['\x7d']) := by
    rw [ofFields, Value.chars, fieldTexts_eq]
  refine .of_cons hchars fun fuel rest hfuel _ => ?_
  rw [List.length_append, List.length_singleton] at hfuel
  rw [List.append_assoc, List.singleton_append]
  cases fields with
  | nil => rfl
  | cons first fields =>
    have hbegin : ∃ cs, commaSeparated ((first :: fields).map fieldText) ++ '\x7d' :: rest =
        '"' :: cs := by
      cases fields <;> simp [commaSeparated, fieldText, quote]
    obtain ⟨cs, hbegin⟩ := hbegin
    have hstep : parseValue (fuel + 1) ('\x7b' :: '"' :: cs) = parseFields fuel [] ('"' :: cs) := rfl
    rw [hbegin, hstep, ← hbegin, parseFields_commaSeparated hread [] rest (by omega)]
    rfl

/-! ### Numbers that can be kept -/

namespace Decimal

theorem nearestBinary_le (n : Nat) :
    nearestBinary n ≤ n + Nat.pow 2 (Nat.log2 n + 1 - 53) := by
  have hlow := Nat.mod_le n (Nat.pow 2 (Nat.log2 n + 1 - 53))
  simp only [nearestBinary]
  split
  · omega
  · omega

/-- A word is far below the numbers that are out of range. -/
theorem nearestBinary_lt {n : Nat} (h : n < UInt64.size) : nearestBinary n < overflowBound := by
  have hlog : Nat.log2 n < 64 := by
    by_cases hn : n = 0
    · subst hn
      decide
    · exact (Nat.log2_lt hn).2 h
  have hunit : Nat.pow 2 (Nat.log2 n + 1 - 53) ≤ Nat.pow 2 11 :=
    Nat.pow_le_pow_right (by decide) (by omega)
  have hbound : UInt64.size + Nat.pow 2 11 ≤ overflowBound := by
    decide +kernel
  have := nearestBinary_le n
  omega

end Decimal

theorem isFinite_ofNat {n : Nat} (h : n < UInt64.size) : (Number.ofNat n).isFinite = true := by
  have hdecimal : (Number.ofNat n).toDecimal = ⟨n, 0⟩ := by
    rw [Number.toDecimal, Number.ofNat, Decimal.leading, if_pos h]
    rfl
  have hone : Decimal.nearestBinary (Nat.pow 10 (Int.toNat 0)) = 1 := by
    decide
  rw [Number.isFinite, hdecimal, Decimal.isFinite]
  split
  · rfl
  · have hpower : ¬Decimal.maxPower < 0 := by decide
    rw [if_neg hpower, hone, Nat.mul_one, decide_eq_true_iff]
    exact Decimal.nearestBinary_lt h

theorem areKeepable_iff {levels : Nat} {elements : List Value} :
    Value.areKeepable levels elements = true ↔ ∀ v ∈ elements, v.isKeepable levels = true := by
  induction elements with
  | nil => simp [Value.areKeepable]
  | cons v elements ih => rw [Value.areKeepable, Bool.and_eq_true, ih, List.forall_mem_cons]

theorem areFieldsKeepable_iff {levels : Nat} {fields : List (String × Value)} :
    Value.areFieldsKeepable levels (fields.map fun e => (some e.1, e.2)) = true ↔
      ∀ field ∈ fields, field.2.isKeepable levels = true := by
  induction fields with
  | nil => simp [Value.areFieldsKeepable]
  | cons field fields ih =>
    rw [List.map_cons, Value.areFieldsKeepable, Bool.and_eq_true, Bool.and_eq_true, ih,
      List.forall_mem_cons, Option.isSome_some]
    exact and_congr_left fun _ => and_iff_right rfl

/-! ### Plain values -/

namespace Plain

variable {levels : Nat} {v : Value}

theorem isRead (h : Plain levels v) : IsRead v := by
  induction h with
  | null => exact .of_cons rfl fun _ _ _ _ => rfl
  | bool b => cases b <;> exact .of_cons rfl fun _ _ _ _ => rfl
  | word _ => exact isRead_ofNat _
  | text s => exact isRead_text s
  | array hplain ih => exact isRead_array hplain ih
  | object _ ih => exact isRead_ofFields ih

/-- **A plain value is read back from its text.** -/
theorem parse_text (h : Plain levels v) : parse v.text = some v := by
  have hread := h.isRead (2 * v.chars.length + 2) [] (by omega) trivial
  rw [List.append_nil] at hread
  simp only [parse, Value.text, String.toList_ofList, hread]
  rfl

/-- A plain value can be kept where there is room for its nesting. -/
theorem isKeepable (h : Plain levels v) : v.isKeepable levels = true := by
  induction h with
  | null => rfl
  | bool _ => rfl
  | word hn => exact isFinite_ofNat hn
  | text _ => rfl
  | array _ ih => exact areKeepable_iff.2 ih
  | object _ ih => exact areFieldsKeepable_iff.2 ih

theorem mono {more : Nat} (h : Plain levels v) (hle : levels ≤ more) : Plain more v := by
  induction h generalizing more with
  | null => exact .null
  | bool b => exact .bool b
  | word hn => exact .word hn
  | text s => exact .text s
  | array _ ih =>
    obtain ⟨more, rfl⟩ : ∃ fewer, more = fewer + 1 := ⟨more - 1, by omega⟩
    exact .array fun v hv => ih v hv (by omega)
  | object _ ih =>
    obtain ⟨more, rfl⟩ : ∃ fewer, more = fewer + 1 := ⟨more - 1, by omega⟩
    exact .object fun field hfield => ih field hfield (by omega)

end Plain

end UtxoLedger.Json
