import KernelGuard.Proofs.BinaryOverflow
import KernelGuard.Proofs.ReadBack

/-! Literals read, written and read again. What is written of a literal is a literal of the
same value, wherever one may stand, unless its numeral runs over the floating format that it is
written at. Such a numeral is taken as infinity, which is written as a word that no place
accepts. -/
namespace KernelGuard

open Reader Lexeme

/-- The least magnitude that runs over a type; only floating types have one. -/
def Ty.overflow? : Ty → Option ℚ
  | .float => some BinaryFormat.single.overflow
  | .double => some BinaryFormat.double.overflow
  | _ => none

namespace Draft

/-- The text of a numeral. -/
def Form.numeral? : Form → Option String
  | .integer text | .decimal text => some text
  | _ => none

/-- A numeral stays below where its type ends. -/
def Form.InRange (type : Ty) (form : Form) : Prop :=
  ∀ text ∈ form.numeral?, ∀ numeral ∈ Decimal.ofChars? text.toList, ∀ bound ∈ type.overflow?,
    numeral.number < bound

/-- Where literals stand: as operands of instructions and as initial values of globals. -/
inductive LiteralPlace where
  | operand
  | initial
deriving DecidableEq, Repr

/-- What is read there. An operand may also be a name. -/
def LiteralPlace.reader : LiteralPlace → Reader Operand
  | operand => Draft.operand
  | initial => marked constant

/-- A literal is taken off the front of a text, and it has a value at a type. -/
structure StandsFor (place : LiteralPlace) (type : Ty) (text rest : List Char)
    (operand : Operand) (value : Value) : Prop where
  read : place.reader text = some (operand, rest)
  literal : operand.item.IsConstant
  meaning : Operand.value type operand = .ok value

variable {place : LiteralPlace} {type : Ty} {text rest : List Char} {form : Form}
  {operand : Operand} {value : Value}

/-! ## Values that are not finite -/

/-- A literal is a truth value or a numeral that has a value at its type. -/
private theorem literal_cases (literal : form.IsConstant) (meaning : form.value type = .ok value) :
    (∃ truth, form.numeral? = none ∧ value = .bool truth) ∨
      ∃ numeral, form.numeral? = some numeral ∧ numeralValue? type numeral = some value := by
  cases form with
  | integer numeral =>
    cases found : numeralValue? type numeral with
    | none => simp [Form.value, found] at meaning
    | some value' =>
      obtain rfl : value' = value := by simpa [Form.value, found] using meaning
      exact .inr ⟨numeral, rfl, found⟩
  | decimal numeral =>
    by_cases float : type.isFloat = true
    · cases found : numeralValue? type numeral with
      | none => simp [Form.value, float, found] at meaning
      | some value' =>
        obtain rfl : value' = value := by simpa [Form.value, float, found] using meaning
        exact .inr ⟨numeral, rfl, found⟩
    · simp [Form.value, float] at meaning
  | truth truth =>
    simp only [Form.value] at meaning
    split at meaning
    · cases meaning
      exact .inl ⟨truth, rfl, rfl⟩
    · cases meaning
  | localName _ => cases literal
  | globalName _ => cases literal

/-- Only floating types have values that are not finite. -/
private theorem isFinite_of_no_overflow (none : value.type.overflow? = none) :
    value.isFinite = true := by
  cases value <;> first | rfl | cases none

/-- The value of a numeral is finite just if its magnitude is in the range of its type. -/
private theorem numeral_isFinite_iff {numeral : String} (typed : value.type = type)
    (read : numeralValue? type numeral = some value) :
    value.isFinite = true ↔ ∀ decimal ∈ Decimal.ofChars? numeral.toList,
      ∀ bound ∈ type.overflow?, decimal.number < bound := by
  cases type with
  | float =>
    obtain ⟨decimal, found, rfl⟩ := Option.map_eq_some_iff.mp read
    simp only [found, Ty.overflow?, Option.mem_some_iff, forall_eq']
    exact Binary.ofDecimal_isFinite_iff BinaryFormat.single_sound decimal
  | double =>
    obtain ⟨decimal, found, rfl⟩ := Option.map_eq_some_iff.mp read
    simp only [found, Ty.overflow?, Option.mem_some_iff, forall_eq']
    exact Binary.ofDecimal_isFinite_iff BinaryFormat.double_sound decimal
  | _ =>
    have finite : value.isFinite = true := isFinite_of_no_overflow (by rw [typed]; rfl)
    simp [finite, Ty.overflow?]

/-- A value of a numeral that is not finite is written as one of two words. -/
private theorem numeral_endless {numeral : String} (typed : value.type = type)
    (read : numeralValue? type numeral = some value) (endless : ¬value.isFinite = true) :
    ∃ negative : Bool, value.text = if negative then "-inf" else "inf" := by
  cases type with
  | float =>
    obtain ⟨decimal, -, rfl⟩ := Option.map_eq_some_iff.mp read
    refine ⟨decimal.negative, ?_⟩
    rw [Value.text, Binary.ofDecimal_eq_infinite endless]
    cases decimal.negative <;> rfl
  | double =>
    obtain ⟨decimal, -, rfl⟩ := Option.map_eq_some_iff.mp read
    refine ⟨decimal.negative, ?_⟩
    rw [Value.text, Binary.ofDecimal_eq_infinite endless]
    cases decimal.negative <;> rfl
  | _ => exact absurd (isFinite_of_no_overflow (by rw [typed]; rfl)) endless

/-- A literal has a finite value just if it is in the range of its type. -/
theorem StandsFor.isFinite_iff (stands : StandsFor place type text rest operand value) :
    value.isFinite = true ↔ operand.item.InRange type := by
  have typed := (constant_meaning stands.meaning stands.literal).2
  rcases literal_cases stands.literal (operand_form stands.meaning) with
    ⟨truth, noNumeral, rfl⟩ | ⟨numeral, isNumeral, found⟩
  · simp [Form.InRange, noNumeral, Value.isFinite]
  · simp only [Form.InRange, isNumeral, Option.mem_some_iff, forall_eq']
    exact numeral_isFinite_iff typed found

/-! ## What is written -/

/-- Every place takes a number or a truth value as it stands. -/
private theorem place_reads (place : LiteralPlace) (solid : Solid text)
    (read : constant text = some (form, rest)) :
    place.reader text = some (⟨text.length, form⟩, rest) := by
  cases place with
  | operand => exact ReadBack.marked_reads solid (orElse_reads read)
  | initial => exact ReadBack.marked_reads solid read

/-- What is no number and no truth value and has no sigil is taken nowhere. -/
private theorem place_refuses (place : LiteralPlace) (solid : Solid text)
    (refused : constant text = none) (noSigil : ∀ c ∈ text.head?, c ≠ '%' ∧ c ≠ '@') :
    place.reader text = none := by
  have noName : ∀ {sigil}, (∀ c ∈ text.head?, c ≠ sigil) → sigiled sigil text = none :=
    fun other => bind_refuses (symbol_refuses solid other)
  cases place with
  | operand =>
    refine ReadBack.marked_refuses solid ((orElse_refuses refused).trans ?_)
    refine (orElse_refuses (bind_refuses (noName fun c first => (noSigil c first).1))).trans ?_
    exact bind_refuses (noName fun c first => (noSigil c first).2)
  | initial => exact ReadBack.marked_refuses solid refused

/-- No truth value begins with another letter than its words. -/
private theorem truth_refuses {c : Char} (solid : isSolid c = true) (notTrue : c ≠ 't')
    (notFalse : c ≠ 'f') (rest : List Char) : truth (c :: rest) = none := by
  have other : ∀ {word first letters}, String.toList word = first :: letters → c ≠ first →
      String.ofList ((c :: rest).takeWhile isWordChar) ≠ word := by
    rintro word first letters spelled different rfl
    rw [String.toList_ofList, List.takeWhile_cons] at spelled
    split at spelled
    · exact different (List.cons.inj spelled).1
    · cases spelled
  have noTrue : String.ofList ((c :: rest).takeWhile isWordChar) ≠ "true" := other rfl notTrue
  have noFalse : String.ofList ((c :: rest).takeWhile isWordChar) ≠ "false" := other rfl notFalse
  rw [truth, tabled, bind_reads (gap_solid (solid_cons solid rest))]
  simp [mapped, takeWhile, noTrue, noFalse]

/-- The words for infinity are no literals. -/
private theorem infinite_refused (negative : Bool) (place : LiteralPlace) (rest : List Char) :
    place.reader ((if negative then "-inf" else "inf").toList ++ rest) = none := by
  cases negative with
  | false =>
    have noNumber : number ('i' :: 'n' :: 'f' :: rest) = none :=
      ReadBack.number_refuses 'i' rfl rfl (by decide) _
    refine place_refuses place (solid_cons rfl _) ?_ (by simp)
    exact (orElse_refuses noNumber).trans
      (bind_refuses (truth_refuses rfl (by decide) (by decide) _))
  | true =>
    have solid : Solid ('-' :: 'i' :: 'n' :: 'f' :: rest) := solid_cons rfl _
    have signed : minus ('-' :: 'i' :: 'n' :: 'f' :: rest) =
        some (['-'], 'i' :: 'n' :: 'f' :: rest) := rfl
    have noNumber : number ('-' :: 'i' :: 'n' :: 'f' :: rest) = none := by
      refine bind_refuses ?_
      rw [numeral, bind_reads (gap_solid solid), bind_reads signed]
      exact bind_refuses (takeWhile1_refuses (stops_cons rfl _))
    refine place_refuses place solid ?_ (by simp)
    exact (orElse_refuses noNumber).trans
      (bind_refuses (truth_refuses rfl (by decide) (by decide) _))

/-- What is written of a literal stands for its value at its type wherever a literal may stand,
just if the literal is in the range of the type. Otherwise no place accepts what is written. -/
theorem literal_survives_iff_in_range
    (stands : StandsFor place type text rest operand value) :
    value.type = type ∧
    ((∀ place rest, Stops isNameChar rest →
        ∃ operand, StandsFor place type (value.text.toList ++ rest) rest operand value) ↔
      operand.item.InRange type) ∧
    (¬operand.item.InRange type → ∀ place rest,
      LiteralPlace.reader place (value.text.toList ++ rest) = none) := by
  obtain ⟨constant, typed⟩ := constant_meaning stands.meaning stands.literal
  have finite := stands.isFinite_iff
  have refused : ¬operand.item.InRange type → ∀ place rest,
      LiteralPlace.reader place (value.text.toList ++ rest) = none := by
    intro beyond place rest
    have endless : ¬value.isFinite = true := finite.not.mpr beyond
    rcases literal_cases stands.literal (operand_form stands.meaning) with
      ⟨truth, -, rfl⟩ | ⟨numeral, -, found⟩
    · exact absurd rfl endless
    · obtain ⟨negative, text⟩ := numeral_endless typed found endless
      rw [text]
      exact infinite_refused negative place rest
  refine ⟨typed, ⟨fun survives => ?_, fun inRange place rest stops => ?_⟩, refused⟩
  · by_contra beyond
    obtain ⟨operand, again⟩ := survives .initial [] stops_nil
    exact Option.some_ne_none _ (again.read.symm.trans (refused beyond .initial []))
  · have readable : value.Readable := by
      cases value with
      | temp => cases constant
      | _ => exact finite.mpr inRange
    obtain ⟨⟨form, read, meant⟩, solid⟩ := ReadBack.constant_yields readable constant stops
    rw [typed] at meant
    refine ⟨_, place_reads place solid read, gives_constant _ _ _ read, ?_⟩
    simp only [Operand.value, meant]

/-- The greatest finite value of single precision. -/
def greatestSingle : Value := .float (.finite ⟨false, 16777215, 104, by decide⟩)

/-- The greatest integer that single precision still takes in, with a zero in front of it, is
the initial value of a global. It is written with an exponent, and read again as an operand. -/
theorem greatestSingle_survives :
    StandsFor .initial .float "0340282356779733661637539395458142568447\n".toList "\n".toList
      ⟨41, .integer "0340282356779733661637539395458142568447"⟩ greatestSingle ∧
    greatestSingle.text = "3.4028235e38" ∧
    ∃ operand, StandsFor .operand .float "3.4028235e38, 0".toList ", 0".toList operand
      greatestSingle := by
  have stands : StandsFor .initial .float
      "0340282356779733661637539395458142568447\n".toList "\n".toList
      ⟨41, .integer "0340282356779733661637539395458142568447"⟩ greatestSingle :=
    ⟨by decide +kernel, trivial, by decide +kernel⟩
  have text : greatestSingle.text = "3.4028235e38" := by decide +kernel
  have inRange : Form.InRange .float (.integer "0340282356779733661637539395458142568447") := by
    rintro _ ⟨⟩ numeral read bound ⟨⟩
    obtain rfl : ⟨false, 340282356779733661637539395458142568447, 0⟩ = numeral :=
      Option.some.inj ((by decide +kernel : some _ = _).trans read)
    norm_num [Decimal.number, BinaryFormat.overflow, BinaryFormat.single]
  obtain ⟨-, survives, -⟩ := literal_survives_iff_in_range stands
  have back := survives.mpr inRange .operand ", 0".toList (stops_cons rfl _)
  rw [text] at back
  exact ⟨stands, text, back⟩

/-- A numeral far beyond single precision is accepted and written as infinity, and no place
accepts that. -/
theorem huge_literal_lost :
    StandsFor .operand .float "1e999\n".toList "\n".toList ⟨6, .decimal "1e999"⟩
      (.float (.infinite false)) ∧
    (Value.float (.infinite false)).text = "inf" ∧
    ∀ place rest, LiteralPlace.reader place ("inf".toList ++ rest) = none :=
  ⟨⟨by decide +kernel, trivial, by decide +kernel⟩, rfl, infinite_refused false⟩

end Draft

end KernelGuard
