import KernelGuard.Proofs.NumeralText
import KernelGuard.Proofs.Readable

/-! Reading what is written. Each construct that can be written is taken off the front of
its own text and stands for itself, whatever follows that its last word cannot run into. -/
namespace KernelGuard

open Reader Lexeme

namespace ReadBack

section
variable {α : Type} {reader : Reader α}

/-- A reader takes a piece off the front of a text, and what it takes has a meaning. -/
def Yields {δ ε : Type} (reader : Reader δ) (meaning : δ → Except ε α) (piece rest : List Char)
    (value : α) : Prop :=
  ∃ draft, reader (piece ++ rest) = some (draft, rest) ∧ meaning draft = .ok value

theorem marked_reads {item : α} (solid : Solid text) (read : reader text = some (item, rest)) :
    Draft.marked reader text = some (⟨text.length, item⟩, rest) := by
  rw [Draft.marked, bind_reads (gap_solid solid)]
  change (reader >>= _) text = _
  rw [bind_reads read, pure_reads]

theorem marked_refuses (solid : Solid text) (refused : reader text = none) :
    Draft.marked reader text = none := by
  rw [Draft.marked, bind_reads (gap_solid solid)]
  change (reader >>= _) text = _
  rw [bind_refuses refused]

theorem gapped_marked (reader : Reader α) : Gapped (Draft.marked reader) := gapped_gap _

/-- What is read is also read behind a blank. -/
theorem behind_blank (gapped : Gapped reader) (read : reader text = result) :
    reader (' ' :: text) = result :=
  (gapped ' ' text rfl).trans read

end

theorem spaced_toList (a b : String) (rest : List Char) :
    (a ++ " " ++ b).toList ++ rest = a.toList ++ ' ' :: (b.toList ++ rest) := by
  simp

/-! ## Rows -/

section
variable {α δ ε : Type} {reader : Reader δ} {meaning : δ → Except ε α}

/-- What each value of a list is written as is taken as a row, if the text of each value
may stand behind the one before. -/
theorem row_yields {piece : α → List Char} {ends : List Char → Prop} (values : List α)
    (each : ∀ value ∈ values, ∀ rest, ends rest → Yields reader meaning (piece value) rest value)
    (nonempty : ∀ value ∈ values, piece value ≠ [])
    (starts : ∀ value ∈ values, ∀ rest, ends (piece value ++ rest)) (ended : ends tail) :
    ∃ drafts, Row reader (values.flatMap piece ++ tail) drafts tail ∧
      drafts.mapM meaning = .ok values := by
  induction values with
  | nil => exact ⟨[], .nil, rfl⟩
  | cons value values ih =>
    obtain ⟨drafts, row, meant⟩ := ih (fun v member => each v (List.mem_cons_of_mem _ member))
      (fun v member => nonempty v (List.mem_cons_of_mem _ member))
      (fun v member => starts v (List.mem_cons_of_mem _ member))
    have behind : ends (values.flatMap piece ++ tail) := by
      cases values with
      | nil => exact ended
      | cons next values =>
        rw [List.flatMap_cons, List.append_assoc]
        exact starts next (by simp) _
    obtain ⟨draft, read, draftMeant⟩ := each value (by simp) _ behind
    refine ⟨draft :: drafts, ?_, ?_⟩
    · rw [List.flatMap_cons, List.append_assoc]
      refine .cons read ?_ row
      have := List.length_pos_iff.mpr (nonempty value (by simp))
      simp only [List.length_append]
      omega
    · rw [List.mapM_cons, draftMeant, meant]
      rfl

theorem intercalate_toList (separator first : String) (more : List String) :
    (separator.intercalate (first :: more)).toList =
      first.toList ++ more.flatMap fun piece => separator.toList ++ piece.toList := by
  induction more generalizing first with
  | nil => simp
  | cons second more ih =>
    rw [String.intercalate_cons_cons, String.toList_append, String.toList_append, ih,
      List.flatMap_cons]
    simp only [List.append_assoc]

/-- A row with commas is taken up to where no comma follows. -/
theorem separated1_yields {piece : α → String} {values : List α} (gapped : Gapped reader)
    (nonempty : values ≠ [])
    (each : ∀ value ∈ values, ∀ rest, Stops isNameChar rest →
      Yields reader meaning (piece value).toList rest value)
    (stops : Stops isNameChar rest) (noComma : symbol ',' rest = none) :
    Yields (Draft.separated1 reader) (List.mapM meaning ·)
      (commaSeparated (values.map piece)).toList rest values := by
  cases values with
  | nil => exact absurd rfl nonempty
  | cons first more =>
    have later : ∀ value ∈ more, ∀ rest, Stops isNameChar rest →
        Yields (symbol ',' >>= fun _ => reader) meaning (", ".toList ++ (piece value).toList) rest
          value := by
      intro value member rest stops
      obtain ⟨draft, read, meant⟩ := each value (List.mem_cons_of_mem _ member) rest stops
      refine ⟨draft, ?_, meant⟩
      change (symbol ',' >>= _) (',' :: ' ' :: ((piece value).toList ++ rest)) = _
      rw [bind_reads (symbol_reads rfl _), behind_blank gapped read]
    have comma : ∀ value ∈ more, ∀ rest,
        Stops isNameChar ((", ".toList ++ (piece value).toList) ++ rest) :=
      fun _ _ _ => stops_cons rfl _
    obtain ⟨drafts, row, draftsMeant⟩ := row_yields more later (by simp) comma stops
    have behind : Stops isNameChar
        (more.flatMap (fun value => ", ".toList ++ (piece value).toList) ++ rest) := by
      cases more with
      | nil => exact stops
      | cons second more => exact stops_cons rfl _
    obtain ⟨draft, read, meant⟩ := each first (by simp) _ behind
    have text : (commaSeparated ((first :: more).map piece)).toList =
        (piece first).toList ++ more.flatMap fun value => ", ".toList ++ (piece value).toList := by
      rw [List.map_cons, commaSeparated, intercalate_toList, List.flatMap_map]
    refine ⟨draft :: drafts, ?_, ?_⟩
    · rw [text, List.append_assoc, Draft.separated1, bind_reads read,
        bind_reads (many_reads row (bind_refuses noComma)), pure_reads]
    · simp only [List.mapM_cons, meant, draftsMeant]
      rfl

/-- A row with commas may be empty. -/
theorem separated_yields {piece : α → String} (values : List α) (gapped : Gapped reader)
    (each : ∀ value ∈ values, ∀ rest, Stops isNameChar rest →
      Yields reader meaning (piece value).toList rest value)
    (stops : Stops isNameChar rest) (noComma : symbol ',' rest = none)
    (noValue : reader rest = none) :
    Yields (Draft.separated reader) (List.mapM meaning ·)
      (commaSeparated (values.map piece)).toList rest values := by
  cases values with
  | nil =>
    refine ⟨[], ?_, rfl⟩
    exact (orElse_refuses (bind_refuses noValue)).trans (pure_reads _ _)
  | cons first more =>
    obtain ⟨drafts, read, meant⟩ :=
      separated1_yields gapped (List.cons_ne_nil first more) each stops noComma
    exact ⟨drafts, orElse_reads read, meant⟩

end

/-! ## Words -/

theorem type_isWord (type : Ty) : isWord type.text = true := by
  cases type <;> rfl

theorem type_reads (type : Ty) (stops : Stops isNameChar rest) :
    Draft.type (type.text.toList ++ rest) = some (type, rest) := by
  have found : Ty.ofText? type.text = some type := by cases type <;> rfl
  rw [Draft.type, tabled_reads (type_isWord type) stops, found, Option.map_some]

theorem gapped_type : Gapped Draft.type := gapped_tabled _

/-- A word of a table in front of a blank. -/
theorem word_reads {α : Type} {table : String → Option α} {value : α} (word : isWord name = true)
    (found : table name = some value) (rest : List Char) :
    tabled table (name.toList ++ ' ' :: rest) = some (value, ' ' :: rest) := by
  rw [tabled_reads word (stops_cons rfl _), found, Option.map_some]

theorem word_misses {α : Type} {table : String → Option α} (word : isWord name = true)
    (missing : table name = none) (rest : List Char) :
    tabled table (name.toList ++ ' ' :: rest) = none := by
  rw [tabled_reads word (stops_cons rfl _), missing, Option.map_none]

/-- A keyword in front of a blank. -/
theorem keyword_blank {word : String} (spelled : isWord word = true) (rest : List Char) :
    keyword word (word.toList ++ ' ' :: rest) = some ((), ' ' :: rest) :=
  keyword_reads (solid_word spelled _)

/-! ## Operands -/

theorem number_reads {written : Decimal.Written} (sound : written.Sound)
    (stops : Stops isNameChar rest) :
    Draft.number (written.chars ++ rest) = some (if written.isInteger then
      .integer (String.ofList written.chars) else .decimal (String.ofList written.chars), rest) := by
  rw [Draft.number, bind_reads (Decimal.Written.numeral_reads sound stops)]
  cases written.isInteger <;> rfl

/-- No number begins with a letter or a sigil. -/
theorem number_refuses (c : Char) (solid : isSolid c = true) (noDigit : c.isDigit = false)
    (noSign : c ≠ '-') (rest : List Char) : Draft.number (c :: rest) = none := by
  have unsigned : minus (c :: rest) = some ([], c :: rest) := by
    simp [minus, kept, Reader.orElse, char_refuses noSign, bind_refuses, pure_reads]
  rw [Draft.number, numeral]
  refine bind_refuses ?_
  rw [bind_reads (gap_solid (solid_cons solid rest)), bind_reads unsigned]
  exact bind_refuses (takeWhile1_refuses (stops_cons noDigit rest))

private theorem ofInt32?_toInt (n : Int32) : Value.ofInt32? n.toInt = some (.int n) := by
  rw [Value.ofInt32?, if_pos ⟨Int32.minValue_le_toInt n, n.toInt_le⟩, Int32.ofInt_toInt]

private theorem ofInt64?_toInt (n : Int64) : Value.ofInt64? n.toInt = some (.long n) := by
  rw [Value.ofInt64?, if_pos ⟨Int64.minValue_le_toInt n, n.toInt_le⟩, Int64.ofInt_toInt]

private theorem numeral_yields {written : Decimal.Written} {type : Ty} {value : Value}
    (sound : written.Sound) (fits : written.isInteger = true ∨ type.isFloat = true)
    (found : Draft.numeralValue? type (String.ofList written.chars) = some value)
    (stops : Stops isNameChar rest) :
    Yields Draft.constant (Draft.Form.value type) written.chars rest value := by
  refine ⟨_, orElse_reads (number_reads sound stops), ?_⟩
  by_cases integer : written.isInteger = true
  · rw [if_pos integer]
    simp only [Draft.Form.value, found]
  · rw [if_neg integer]
    have float := fits.resolve_left integer
    simp only [Draft.Form.value, float, if_true, found]

private theorem truth_yields (value : Bool) (stops : Stops isNameChar rest) :
    Yields Draft.constant (Draft.Form.value .i1) (Value.bool value).text.toList rest
      (.bool value) := by
  have word : isWord (Value.bool value).text = true := by cases value <;> rfl
  have read : truth ((Value.bool value).text.toList ++ rest) = some (value, rest) := by
    rw [truth, tabled_reads word stops]
    cases value <;> rfl
  have noNumber : Draft.number ((Value.bool value).text.toList ++ rest) = none := by
    cases value with
    | true => exact number_refuses 't' rfl rfl (by decide) _
    | false => exact number_refuses 'f' rfl rfl (by decide) _
  refine ⟨.truth value, ?_, rfl⟩
  rw [Draft.constant, orElse_refuses noNumber, Draft.truthValue, bind_reads read, pure_reads]

/-- The text of a constant is a numeral or a truth value, and stands for the constant at
its type. -/
theorem constant_yields {value : Value} (readable : value.Readable)
    (constant : value.isConstant = true) (stops : Stops isNameChar rest) :
    Yields Draft.constant (Draft.Form.value value.type) value.text.toList rest value ∧
      Solid (value.text.toList ++ rest) := by
  cases value with
  | temp t => cases constant
  | bool value =>
    refine ⟨truth_yields value stops, solid_word ?_ rest⟩
    cases value <;> rfl
  | int n =>
    obtain ⟨written, sound, text, integer⟩ := Decimal.toString_spelled n.toInt
    change Yields _ _ (toString n.toInt).toList rest _ ∧ Solid ((toString n.toInt).toList ++ rest)
    have found : Draft.numeralValue? .i32 (String.ofList written.chars) = some (.int n) := by
      rw [Draft.numeralValue?, String.toList_ofList, ← text, Decimal.integer_toList]
      exact ofInt32?_toInt n
    rw [text]
    exact ⟨numeral_yields sound (.inl integer) found stops, Decimal.Written.chars_solid sound rest⟩
  | long n =>
    obtain ⟨written, sound, text, integer⟩ := Decimal.toString_spelled n.toInt
    change Yields _ _ (toString n.toInt).toList rest _ ∧ Solid ((toString n.toInt).toList ++ rest)
    have found : Draft.numeralValue? .i64 (String.ofList written.chars) = some (.long n) := by
      rw [Draft.numeralValue?, String.toList_ofList, ← text, Decimal.integer_toList]
      exact ofInt64?_toInt n
    rw [text]
    exact ⟨numeral_yields sound (.inl integer) found stops, Decimal.Written.chars_solid sound rest⟩
  | float x =>
    obtain ⟨written, sound, text, back⟩ :=
      Binary.text_spelled (by decide : BinaryFormat.single.minExponent ≤ 0) (by decide) readable
    change Yields _ _ x.text.toList rest _ ∧ Solid (x.text.toList ++ rest)
    have found : Draft.numeralValue? .float (String.ofList written.chars) = some (.float x) := by
      rw [Draft.numeralValue?, String.toList_ofList, Decimal.Written.ofChars?_chars sound,
        Option.map_some, back]
    rw [text]
    exact ⟨numeral_yields sound (.inr rfl) found stops, Decimal.Written.chars_solid sound rest⟩
  | double x =>
    obtain ⟨written, sound, text, back⟩ :=
      Binary.text_spelled (by decide : BinaryFormat.double.minExponent ≤ 0) (by decide) readable
    change Yields _ _ x.text.toList rest _ ∧ Solid (x.text.toList ++ rest)
    have found : Draft.numeralValue? .double (String.ofList written.chars) = some (.double x) := by
      rw [Draft.numeralValue?, String.toList_ofList, Decimal.Written.ofChars?_chars sound,
        Option.map_some, back]
    rw [text]
    exact ⟨numeral_yields sound (.inr rfl) found stops, Decimal.Written.chars_solid sound rest⟩

/-- Neither a number nor a truth value begins with a character that no word goes on with. -/
theorem constant_refuses (c : Char) (solid : isSolid c = true) (noWord : isWordChar c = false)
    (noSign : c ≠ '-') (rest : List Char) : Draft.constant (c :: rest) = none := by
  have noDigit : c.isDigit = false := by
    refine Bool.eq_false_iff.mpr fun digit => ?_
    simp [isWordChar, Char.isAlphanum, digit] at noWord
  rw [Draft.constant, orElse_refuses (number_refuses c solid noDigit noSign rest),
    Draft.truthValue]
  exact bind_refuses
    (tabled_refuses rfl (solid_cons solid rest) (stops_cons noWord rest))

/-- An operand stands for itself at its own type. -/
theorem operand_yields {value : Value} (readable : value.Readable)
    (stops : Stops isNameChar rest) :
    Yields Draft.operand (Draft.Operand.value value.type) value.text.toList rest value := by
  have marked : ∀ form, Solid (value.text.toList ++ rest) →
      (Draft.constant.orElse (Draft.localOperand.orElse Draft.globalOperand))
        (value.text.toList ++ rest) = some (form, rest) → form.value value.type = .ok value →
      Yields Draft.operand (Draft.Operand.value value.type) value.text.toList rest value := by
    intro form solid read meant
    refine ⟨_, marked_reads solid read, ?_⟩
    simp only [Draft.Operand.value, meant]
  by_cases constant : value.isConstant = true
  · obtain ⟨⟨form, read, meant⟩, solid⟩ := constant_yields readable constant stops
    exact marked form solid (orElse_reads read) meant
  · cases value with
    | temp t =>
      obtain ⟨⟨spelling, isGlobal⟩, type⟩ := t
      obtain ⟨spelled, address⟩ := readable
      cases isGlobal with
      | false =>
        have text : (Value.temp ⟨⟨spelling, false⟩, type⟩).text.toList ++ rest =
            '%' :: (spelling.toList ++ rest) := by
          simp [Value.text, Temp.text, Name.text]
        refine marked (.localName spelling) ?_ ?_ rfl
        · rw [text]
          exact solid_cons rfl _
        · rw [text, orElse_refuses (constant_refuses '%' rfl rfl (by decide) _)]
          refine orElse_reads ?_
          rw [Draft.localOperand, bind_reads (localName_reads spelled stops), pure_reads]
      | true =>
        obtain rfl : type = .ptr := address rfl
        have text : (Value.temp ⟨⟨spelling, true⟩, .ptr⟩).text.toList ++ rest =
            '@' :: (spelling.toList ++ rest) := by
          simp [Value.text, Temp.text, Name.text]
        refine marked (.globalName spelling) ?_ ?_ rfl
        · rw [text]
          exact solid_cons rfl _
        · have noLocal : Draft.localOperand ('@' :: (spelling.toList ++ rest)) = none :=
            bind_refuses (bind_refuses (symbol_refuses (solid_cons rfl _) (by simp)))
          rw [text, orElse_refuses (constant_refuses '@' rfl rfl (by decide) _),
            orElse_refuses noLocal, Draft.globalOperand,
            bind_reads (globalName_reads spelled stops), pure_reads]
    | _ => exact absurd rfl constant

theorem gapped_operand : Gapped Draft.operand := gapped_marked _

theorem typed_toList (type : Ty) (operand : String) :
    (typed type operand).toList = type.text.toList ++ ' ' :: operand.toList := by
  simp [typed]

theorem typedOperand_reads {value : Value} (readable : value.Readable)
    (stops : Stops isNameChar rest) : ∃ operand,
      Draft.typedOperand ((typed value.type value.text).toList ++ rest) =
        some (⟨value.type, operand⟩, rest) ∧
      Draft.Operand.value value.type operand = .ok value := by
  obtain ⟨operand, read, meant⟩ := operand_yields readable stops
  refine ⟨operand, ?_, meant⟩
  rw [typed_toList, List.append_assoc, List.cons_append, Draft.typedOperand,
    bind_reads (type_reads value.type (stops_cons rfl _)),
    bind_reads (behind_blank gapped_operand read), pure_reads]

theorem gapped_typedOperand : Gapped Draft.typedOperand := gapped_bind gapped_type _

/-- A comma and a blank in front of a rest. -/
theorem comma_reads (rest : List Char) : symbol ',' (',' :: rest) = some ((), rest) :=
  symbol_reads rfl rest

theorem operandPair_reads {type : Ty} {lhs rhs : Value} (left : lhs.Readable) (right : rhs.Readable)
    (leftType : lhs.type = type) (rightType : rhs.type = type) (stops : Stops isNameChar rest) :
    ∃ l r, Draft.operandPair ((commaSeparated [typed type lhs.text, rhs.text]).toList ++ rest) =
        some ((type, l, r), rest) ∧
      Draft.Operand.value type l = .ok lhs ∧ Draft.Operand.value type r = .ok rhs := by
  obtain ⟨r, rightRead, rightMeant⟩ := operand_yields right stops
  obtain ⟨l, leftRead, leftMeant⟩ := operand_yields left
    (stops_cons rfl (' ' :: (rhs.text.toList ++ rest)) : Stops isNameChar (',' :: _))
  subst leftType
  rw [rightType] at rightMeant
  refine ⟨l, r, ?_, leftMeant, rightMeant⟩
  have text : (commaSeparated [typed lhs.type lhs.text, rhs.text]).toList ++ rest =
      lhs.type.text.toList ++ ' ' :: (lhs.text.toList ++
        ',' :: ' ' :: (rhs.text.toList ++ rest)) := by
    simp [commaSeparated, typed]
  rw [text, Draft.operandPair, bind_reads (type_reads lhs.type (stops_cons rfl _)),
    bind_reads (behind_blank gapped_operand leftRead), bind_reads (comma_reads _),
    bind_reads (behind_blank gapped_operand rightRead), pure_reads]

theorem gapped_operandPair : Gapped Draft.operandPair := gapped_bind gapped_type _

end ReadBack

end KernelGuard
