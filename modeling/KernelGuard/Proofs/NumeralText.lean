import KernelGuard.Proofs.BinaryRounding
import KernelGuard.Proofs.Reading
import KernelGuard.Binary.Text

/-! Numerals as they are written. What is written has a sign, digits, maybe a point
with further digits and maybe a power of ten; the lexer takes all of it, and its
value is the one that was written out. -/
namespace KernelGuard.Decimal

open Reader Lexeme

/-- The parts of a written numeral. -/
structure Written where
  negative : Bool
  whole : List Char
  fraction : Option (List Char)
  power : Option Int

namespace Written

def sign (written : Written) : List Char := if written.negative then ['-'] else []

def point (written : Written) : List Char :=
  match written.fraction with
  | some places => '.' :: places
  | none => []

def exponent (written : Written) : List Char :=
  match written.power with
  | some power => 'e' :: (toString power).toList
  | none => []

/-- The parts one after another. -/
def chars (written : Written) : List Char :=
  written.sign ++ (written.whole ++ (written.point ++ written.exponent))

/-- Neither a point nor a power is written. -/
def isInteger (written : Written) : Bool := written.fraction.isNone && written.power.isNone

/-- The digits behind the point. -/
def places (written : Written) : List Char := written.fraction.getD []

/-- The numeral that is written out. -/
def value (written : Written) : Decimal :=
  ⟨written.negative, Nat.ofDigitChars 10 (written.whole ++ written.places) 0,
    written.power.getD 0 - written.places.length⟩

/-- Digits stand where digits belong, and there is one in front. -/
structure Sound (written : Written) : Prop where
  nonempty : written.whole ≠ []
  whole : ∀ c ∈ written.whole, c.isDigit = true
  places : ∀ c ∈ written.places, c.isDigit = true

end Written

/-! ## Digits and integers -/

theorem toDigits_digits (n : Nat) : ∀ c ∈ Nat.toDigits 10 n, c.isDigit = true := fun _ member =>
  Nat.isDigit_of_mem_toDigits (by decide) (by decide) member

theorem isNameChar_of_isDigit {c : Char} (digit : c.isDigit = true) : isNameChar c = true := by
  simp [isNameChar, Char.isAlphanum, digit]

private theorem stops_digits {text : List Char} (stops : Stops isNameChar text) :
    Stops Char.isDigit text := by
  intro c first
  refine Bool.eq_false_iff.mpr fun digit => ?_
  exact absurd (isNameChar_of_isDigit digit) (by simp [stops c first])

/-- An integer is written with a sign if it is negative, and then its digits. -/
theorem toList_int (n : Int) :
    (toString n).toList = (if n < 0 then ['-'] else []) ++ Nat.toDigits 10 n.natAbs := by
  change (Int.repr n).toList = _
  cases n with
  | ofNat n => simp [Int.repr]
  | negSucc n => simp [Int.repr]

private theorem natural?_digits {digits : List Char} (nonempty : digits ≠ [])
    (all : ∀ c ∈ digits, c.isDigit = true) :
    natural? digits = some (Nat.ofDigitChars 10 digits 0) :=
  if_pos ⟨nonempty, List.all_eq_true.mpr all⟩

/-- A sign is taken off whether or not it is written. -/
private theorem takeSign_signed {digits : List Char} (nonempty : digits ≠ [])
    (all : ∀ c ∈ digits, c.isDigit = true) (negative : Bool) (rest : List Char) :
    takeSign ((if negative then ['-'] else []) ++ (digits ++ rest)) =
      (negative, digits ++ rest) := by
  cases negative with
  | true => rfl
  | false =>
    cases digits with
    | nil => exact absurd rfl nonempty
    | cons c more =>
      have digit : c.isDigit = true := all c (by simp)
      change takeSign (c :: (more ++ rest)) = _
      unfold takeSign
      split
      · rename_i same
        cases same
        exact absurd digit (by decide)
      · rename_i same
        cases same
        exact absurd digit (by decide)
      · rfl

/-- What is written for an integer is read as it. -/
theorem integer_toList (n : Int) : integer? (toString n).toList = some n := by
  have sign : (if n < 0 then ['-'] else []) = if decide (n < 0) then ['-'] else [] := by simp
  have unsigned := takeSign_signed Nat.toDigits_ne_nil (toDigits_digits n.natAbs)
    (decide (n < 0)) []
  rw [List.append_nil] at unsigned
  have digits := natural?_digits Nat.toDigits_ne_nil (toDigits_digits n.natAbs)
  rw [Nat.ofDigitChars_ten_toDigits] at digits
  rw [toList_int, sign, integer?, unsigned]
  simp only [digits, Option.bind_eq_bind, Option.bind_some, Option.pure_def, Option.map_some,
    Option.some.injEq]
  by_cases negative : n < 0
  · rw [if_pos (by simpa using negative)]
    omega
  · rw [if_neg (by simpa using negative)]
    omega

/-! ## The value of what is written -/

namespace Written

variable {written : Written}

private theorem point_cases (written : Written) :
    (written.fraction = none ∧ written.point = [] ∧ written.places = []) ∨
      ∃ places, written.fraction = some places ∧ written.point = '.' :: places ∧
        written.places = places := by
  unfold point places
  cases written.fraction with
  | none => exact .inl ⟨rfl, rfl, rfl⟩
  | some digits => exact .inr ⟨digits, rfl, rfl, rfl⟩

private theorem exponent_cases (written : Written) :
    written.exponent = [] ∨ ∃ rest, written.exponent = 'e' :: rest := by
  unfold exponent
  cases written.power with
  | none => exact .inl rfl
  | some power => exact .inr ⟨_, rfl⟩

/-- The digits behind the point end where the power or the rest begins. -/
private theorem stops_before_exponent (written : Written) (stops : Stops isNameChar rest) :
    Stops Char.isDigit (written.exponent ++ rest) := by
  rcases exponent_cases written with absent | ⟨more, present⟩
  · rw [absent]
    exact stops_digits stops
  · rw [present]
    exact stops_cons rfl _

private theorem stops_before_point (written : Written) (stops : Stops isNameChar rest) :
    Stops Char.isDigit (written.point ++ (written.exponent ++ rest)) := by
  rcases point_cases written with ⟨-, noPoint, -⟩ | ⟨places, -, point, -⟩
  · rw [noPoint]
    exact stops_before_exponent written stops
  · rw [point]
    exact stops_cons rfl _

private theorem exponent_value (written : Written) :
    exponent? written.exponent = some (written.power.getD 0) := by
  unfold Written.exponent
  cases written.power with
  | none => rfl
  | some power =>
    rw [exponent?, if_pos (.inl rfl), integer_toList]
    rfl

/-- The whole numeral is read, every digit of it. -/
theorem ofChars?_chars (sound : written.Sound) :
    ofChars? written.chars = some written.value := by
  have whole : Stops Char.isDigit (written.point ++ written.exponent) := by
    simpa using stops_before_point written stops_nil
  have power : Stops Char.isDigit written.exponent := by
    simpa using stops_before_exponent written stops_nil
  have digits := takeWhile_reads sound.whole whole
  simp only [takeWhile, Option.some.injEq, Prod.mk.injEq] at digits
  have unsigned := takeSign_signed sound.nonempty sound.whole written.negative
    (written.point ++ written.exponent)
  have all : ∀ c ∈ written.whole ++ written.places, c.isDigit = true := by
    intro c member
    rcases List.mem_append.mp member with front | behind
    · exact sound.whole c front
    · exact sound.places c behind
  have value := natural?_digits (by simp [sound.nonempty]) all
  have raised := exponent_value written
  rw [ofChars?, chars, sign, unsigned, Written.value]
  simp only [digits]
  rcases point_cases written with ⟨-, noPoint, empty⟩ | ⟨places, -, point, same⟩
  · rw [empty] at value ⊢
    rw [noPoint, List.nil_append]
    rcases exponent_cases written with absent | ⟨rest, present⟩
    · rw [absent] at raised ⊢
      simp only [value, raised, List.length_nil]
    · rw [present] at raised ⊢
      rw [List.append_nil] at value ⊢
      simp [value, raised]
  · have behind := takeWhile_reads (same ▸ sound.places) power
    simp only [takeWhile, Option.some.injEq, Prod.mk.injEq] at behind
    rw [same] at value ⊢
    rw [point]
    simp only [List.cons_append, behind, value, raised]

/-! ## The lexer takes the whole numeral -/

private theorem kept_reads (c : Char) (rest : List Char) :
    kept c (c :: rest) = some ([c], rest) := by
  rw [kept, bind_reads (char_reads c rest), pure_reads]

private theorem kept_refuses {c : Char} {text : List Char} (other : ∀ d ∈ text.head?, d ≠ c) :
    kept c text = none := by
  rw [kept]
  refine bind_refuses ?_
  cases text with
  | nil => rfl
  | cons d rest => exact char_refuses (other d (by simp)) rest

private theorem head_digits {digits : List Char} (nonempty : digits ≠ [])
    (all : ∀ c ∈ digits, c.isDigit = true) (rest : List Char) :
    ∀ c ∈ (digits ++ rest).head?, c.isDigit = true := by
  intro c first
  cases digits with
  | nil => exact absurd rfl nonempty
  | cons d more =>
    obtain rfl : d = c := by simpa using first
    exact all d (by simp)

private theorem minus_reads {digits : List Char} (nonempty : digits ≠ [])
    (all : ∀ c ∈ digits, c.isDigit = true) (negative : Bool) (rest : List Char) :
    minus ((if negative then ['-'] else []) ++ (digits ++ rest)) =
      some (if negative then ['-'] else [], digits ++ rest) := by
  cases negative with
  | true => exact orElse_reads (kept_reads '-' _)
  | false =>
    refine (orElse_refuses (kept_refuses fun c first => ?_)).trans (pure_reads _ _)
    rintro rfl
    exact absurd (head_digits nonempty all rest _ first) (by decide)

private theorem exponent_reads (power : Int) (stops : Stops isNameChar rest) :
    Lexeme.exponent ('e' :: ((toString power).toList ++ rest)) =
      some ('e' :: (toString power).toList, rest) := by
  have nonempty : Nat.toDigits 10 power.natAbs ≠ [] := Nat.toDigits_ne_nil
  have all := toDigits_digits power.natAbs
  have digits := takeWhile1_reads nonempty all (stops_digits stops)
  have letter : ((kept 'e').orElse (kept 'E')) ('e' :: ((toString power).toList ++ rest)) =
      some (['e'], (toString power).toList ++ rest) := orElse_reads (kept_reads 'e' _)
  rw [Lexeme.exponent, bind_reads letter, toList_int]
  by_cases negative : power < 0
  · rw [if_pos negative]
    have sign : (((kept '+').orElse (kept '-')).orElse (pure []))
        (['-'] ++ Nat.toDigits 10 power.natAbs ++ rest) =
          some (['-'], Nat.toDigits 10 power.natAbs ++ rest) :=
      orElse_reads ((orElse_refuses (kept_refuses (by simp))).trans (kept_reads '-' _))
    rw [bind_reads sign, Lexeme.digits, bind_reads digits]
    rfl
  · rw [if_neg negative, List.nil_append]
    have unsigned : ∀ c : Char, c.isDigit = false →
        ∀ d ∈ (Nat.toDigits 10 power.natAbs ++ rest).head?, d ≠ c := by
      rintro c other d first rfl
      exact absurd (head_digits nonempty all rest _ first) (by simp [other])
    have sign : (((kept '+').orElse (kept '-')).orElse (pure []))
        (Nat.toDigits 10 power.natAbs ++ rest) =
          some ([], Nat.toDigits 10 power.natAbs ++ rest) := by
      have bare : ((kept '+').orElse (kept '-')) (Nat.toDigits 10 power.natAbs ++ rest) = none :=
        (orElse_refuses (kept_refuses (unsigned '+' rfl))).trans
          (kept_refuses (unsigned '-' rfl))
      exact (orElse_refuses bare).trans (pure_reads _ _)
    rw [bind_reads sign, Lexeme.digits, bind_reads digits]
    rfl

private theorem exponent_refuses (stops : Stops isNameChar rest) : Lexeme.exponent rest = none := by
  have other : ∀ c : Char, isNameChar c = true → ∀ d ∈ rest.head?, d ≠ c := by
    rintro c name d first rfl
    exact absurd name (by simp [stops d first])
  rw [Lexeme.exponent]
  refine bind_refuses ?_
  exact (orElse_refuses (kept_refuses (other 'e' rfl))).trans (kept_refuses (other 'E' rfl))

/-- The power of ten is taken if one is written, and else there is nothing to take. -/
private theorem written_exponent_reads (written : Written) (stops : Stops isNameChar rest) :
    (Lexeme.exponent.orElse (pure [])) (written.exponent ++ rest) =
      some (written.exponent, rest) := by
  unfold Written.exponent
  cases written.power with
  | none => exact (orElse_refuses (exponent_refuses stops)).trans (pure_reads _ _)
  | some power => exact orElse_reads (exponent_reads power stops)

private theorem fraction_reads (sound : written.Sound) (broken : written.isInteger = false)
    (stops : Stops isNameChar rest) :
    Lexeme.fraction (written.point ++ (written.exponent ++ rest)) =
      some (written.point ++ written.exponent, rest) := by
  rw [Lexeme.fraction]
  rcases point_cases written with ⟨absent, noPoint, -⟩ | ⟨places, -, point, same⟩
  · obtain ⟨power, present⟩ : ∃ power, written.power = some power := by
      simpa [isInteger, absent, Option.isSome_iff_exists] using broken
    have letter : written.exponent = 'e' :: (toString power).toList := by
      simp only [Written.exponent, present]
    rw [noPoint, letter, List.nil_append, List.nil_append, List.cons_append]
    have noPointed : pointed ('e' :: ((toString power).toList ++ rest)) = none := by
      rw [pointed]
      exact bind_refuses (kept_refuses (by simp))
    exact (orElse_refuses noPointed).trans (exponent_reads power stops)
  · have digits := takeWhile_reads (same ▸ sound.places)
      (stops_before_exponent written stops)
    rw [point, List.cons_append]
    refine orElse_reads ?_
    rw [pointed, bind_reads (kept_reads '.' _), bind_reads digits,
      bind_reads (written_exponent_reads written stops)]
    rfl

private theorem fraction_refuses (stops : Stops isNameChar rest) : Lexeme.fraction rest = none := by
  have noPoint : pointed rest = none := by
    rw [pointed]
    refine bind_refuses (kept_refuses ?_)
    rintro c first rfl
    exact absurd (stops _ first) (by decide)
  exact (orElse_refuses noPoint).trans (exponent_refuses stops)

theorem chars_solid (sound : written.Sound) (rest : List Char) :
    Solid (written.chars ++ rest) := by
  intro c first
  rw [chars, sign] at first
  by_cases negative : written.negative = true
  · obtain rfl : '-' = c := by simpa [negative] using first
    decide
  · rw [if_neg negative, List.nil_append, List.append_assoc] at first
    have digit := head_digits sound.nonempty sound.whole _ c first
    exact isSolid_of_isNameChar (isNameChar_of_isDigit digit)

/-- A numeral is taken as a whole where no name could go on. -/
theorem numeral_reads (sound : written.Sound) (stops : Stops isNameChar rest) :
    numeral (written.chars ++ rest) =
      some ((written.isInteger, String.ofList written.chars), rest) := by
  have spread : written.chars ++ rest =
      written.sign ++ (written.whole ++ (written.point ++ (written.exponent ++ rest))) := by
    simp only [chars, List.append_assoc]
  have front := stops_before_point written stops
  rw [numeral, bind_reads (gap_solid (chars_solid sound rest)), spread, sign,
    bind_reads (minus_reads sound.nonempty sound.whole written.negative _), Lexeme.digits,
    bind_reads (takeWhile1_reads sound.nonempty sound.whole front)]
  cases integer : written.isInteger with
  | false =>
    rw [bind_reads (optional_reads (fraction_reads sound integer stops)), chars, sign,
      ← List.append_assoc]
    rfl
  | true =>
    obtain ⟨noFraction, noPower⟩ : written.fraction = none ∧ written.power = none := by
      simpa [isInteger] using integer
    have noPoint : written.point = [] := by simp only [point, noFraction]
    have noExponent : written.exponent = [] := by simp only [Written.exponent, noPower]
    rw [noPoint, noExponent, List.nil_append, List.nil_append,
      bind_reads (optional_refuses (fraction_refuses stops)), chars, sign, noPoint, noExponent,
      List.append_nil, List.append_nil]
    rfl

end Written

/-! ## The two layouts -/

theorem stripZeros_number (coefficient : Nat) (exponent : Int) (negative : Bool) :
    (⟨negative, (stripZeros coefficient exponent).1, (stripZeros coefficient exponent).2⟩ :
      Decimal).number = (⟨negative, coefficient, exponent⟩ : Decimal).number := by
  fun_induction stripZeros coefficient exponent with
  | case1 coefficient exponent more ih =>
    rw [ih]
    have tens : coefficient = coefficient / 10 * 10 := by omega
    simp only [number]
    rw [zpow_add₀ (by norm_num), zpow_one]
    conv_rhs => rw [tens]
    push_cast
    ring
  | case2 coefficient exponent ends => rfl

/-- A text is what is written of a numeral behind its sign. -/
structure Written.Spells (written : Written) (magnitude : List Char) (numeral : Decimal) :
    Prop where
  sound : written.Sound
  negative : written.negative = numeral.negative
  magnitude : written.whole ++ (written.point ++ written.exponent) = magnitude
  number : written.value.number = numeral.number

section
variable {digits : List Char} (nonempty : digits ≠ []) (all : ∀ c ∈ digits, c.isDigit = true)
variable (negative : Bool) (exponent : Int)
include nonempty all

private theorem positional_spelled : ∃ written : Written,
    written.Spells (positional digits exponent)
      ⟨negative, Nat.ofDigitChars 10 digits 0, exponent⟩ := by
  have zeros : ∀ n : Nat, ∀ c ∈ List.replicate n '0', c.isDigit = true := by
    intro n c member
    rw [List.eq_of_mem_replicate member]
    rfl
  unfold positional
  split
  · rename_i up
    obtain ⟨n, rfl⟩ := Int.eq_ofNat_of_zero_le up
    refine ⟨⟨negative, digits ++ List.replicate n '0', some ['0'], none⟩, ⟨?_, ?_, ?_⟩, rfl, ?_, ?_⟩
    · simp [nonempty]
    · intro c member
      exact (List.mem_append.mp member).elim (all c) (zeros n c)
    · exact zeros 1
    · simp [Written.point, Written.exponent]
    · have tenfold : ∀ n : Nat, Nat.ofDigitChars 10 ['0'] n = 10 * n := fun n => by
        simp [Nat.ofDigitChars_cons]
      simp only [Written.value, Written.places, number, Option.getD_some, Option.getD_none,
        Nat.ofDigitChars_append, Nat.ofDigitChars_replicate_zero, tenfold, List.length_singleton,
        Nat.cast_one, zero_sub, zpow_neg_one, zpow_natCast]
      push_cast
      field_simp
  · rename_i down
    obtain ⟨n, rfl⟩ := Int.exists_eq_neg_ofNat (by omega : exponent ≤ 0)
    simp only [neg_neg, Int.toNat_natCast]
    split
    · rename_i inside
      refine ⟨⟨negative, digits.take (digits.length - n), some (digits.drop (digits.length - n)),
        none⟩, ⟨?_, ?_, ?_⟩, rfl, ?_, ?_⟩
      · have := List.length_pos_of_ne_nil nonempty
        simp only [ne_eq, List.take_eq_nil_iff, nonempty, or_false]
        omega
      · exact fun c member => all c (List.mem_of_mem_take member)
      · exact fun c member => all c (List.mem_of_mem_drop member)
      · simp [Written.point, Written.exponent]
      · have count : (digits.drop (digits.length - n)).length = n := by
          rw [List.length_drop]
          omega
        simp only [Written.value, Written.places, Option.getD_some, Option.getD_none,
          List.take_append_drop, count, zero_sub]
    · rename_i outside
      refine ⟨⟨negative, ['0'], some (List.replicate (n - digits.length) '0' ++ digits), none⟩,
        ⟨by simp, zeros 1, ?_⟩, rfl, ?_, ?_⟩
      · intro c member
        exact (List.mem_append.mp member).elim (zeros _ c) (all c)
      · simp [Written.point, Written.exponent]
      · have count : (List.replicate (n - digits.length) '0' ++ digits).length = n := by
          rw [List.length_append, List.length_replicate]
          omega
        have leading : Nat.ofDigitChars 10 ['0'] 0 = 0 := rfl
        simp only [Written.value, Written.places, Option.getD_some, Option.getD_none, count,
          Nat.ofDigitChars_append, Nat.ofDigitChars_replicate_zero, leading, mul_zero, zero_sub]

private theorem scientific_spelled : ∃ written : Written,
    written.Spells (scientific digits (exponent + digits.length - 1))
      ⟨negative, Nat.ofDigitChars 10 digits 0, exponent⟩ := by
  match digits, nonempty with
  | [digit], _ =>
    refine ⟨⟨negative, [digit], none, some exponent⟩, ⟨by simp, all, by simp [Written.places]⟩,
      rfl, ?_, ?_⟩
    · simp [scientific, Written.point, Written.exponent]
    · simp [Written.value, Written.places]
  | digit :: next :: more, _ =>
    refine ⟨⟨negative, [digit], some (next :: more), some (exponent + more.length + 1)⟩,
      ⟨by simp, ?_, ?_⟩, rfl, ?_, ?_⟩
    · simpa using all digit (by simp)
    · exact fun c member => all c (List.mem_cons_of_mem _ member)
    · have leading :
          exponent + ↑(digit :: next :: more).length - 1 = exponent + more.length + 1 := by
        simp only [List.length_cons]
        omega
      rw [leading]
      simp [scientific, Written.point, Written.exponent]
    · have back : exponent + ↑more.length + 1 - ↑(next :: more).length = exponent := by
        simp only [List.length_cons]
        omega
      simp only [Written.value, Written.places, Option.getD_some, back]
      rfl

end

/-- A numeral is written with the digits of another one of the same value. -/
theorem render_spelled (layout : Layout) (numeral : Decimal) :
    ∃ written : Written, written.Sound ∧ (layout.render numeral).toList = written.chars ∧
      written.negative = numeral.negative ∧ written.value.number = numeral.number := by
  obtain ⟨magnitude, rendered, written, spells⟩ : ∃ magnitude, layout.render numeral =
      String.ofList (if numeral.negative then '-' :: magnitude else magnitude) ∧
        ∃ written : Written, written.Spells magnitude numeral := by
    refine ⟨_, rfl, ?_⟩
    split
    · rename_i zero
      refine ⟨⟨numeral.negative, ['0'], some ['0'], none⟩, ⟨by simp, ?_, ?_⟩, rfl, rfl, ?_⟩
      · simp
      · simp [Written.places]
      · simp [number, zero, Written.value, Written.places, Nat.ofDigitChars_cons]
    · have same := stripZeros_number numeral.coefficient numeral.exponent numeral.negative
      generalize stripZeros numeral.coefficient numeral.exponent = stripped at same ⊢
      obtain ⟨coefficient, exponent⟩ := stripped
      have nonempty : Nat.toDigits 10 coefficient ≠ [] := Nat.toDigits_ne_nil
      have all := toDigits_digits coefficient
      dsimp only at same ⊢
      split
      · obtain ⟨written, sound, negative, magnitude, value⟩ :=
          positional_spelled nonempty all numeral.negative exponent
        rw [Nat.ofDigitChars_ten_toDigits] at value
        exact ⟨written, sound, negative, magnitude, value.trans same⟩
      · obtain ⟨written, sound, negative, magnitude, value⟩ :=
          scientific_spelled nonempty all numeral.negative exponent
        rw [Nat.ofDigitChars_ten_toDigits] at value
        exact ⟨written, sound, negative, magnitude, value.trans same⟩
  refine ⟨written, spells.sound, ?_, spells.negative, spells.number⟩
  rw [rendered, String.toList_ofList, Written.chars, Written.sign, spells.magnitude, spells.negative]
  split <;> rfl

/-- An integer is a numeral without a point and without a power. -/
theorem toString_spelled (n : Int) : ∃ written : Written, written.Sound ∧
    (toString n).toList = written.chars ∧ written.isInteger = true := by
  refine ⟨⟨decide (n < 0), Nat.toDigits 10 n.natAbs, none, none⟩,
    ⟨Nat.toDigits_ne_nil, toDigits_digits _, by simp [Written.places]⟩, ?_, rfl⟩
  rw [toList_int]
  simp [Written.chars, Written.sign, Written.point, Written.exponent]

end KernelGuard.Decimal

namespace KernelGuard.Binary

/-- A finite value is written as a numeral that is read as the value. -/
theorem text_spelled {format : BinaryFormat} (small : format.minExponent ≤ 0)
    (great : 0 ≤ format.maxExponent) {x : Binary format} (finite : x.isFinite = true) :
    ∃ written : Decimal.Written, written.Sound ∧ x.text.toList = written.chars ∧
      ofDecimal format written.value = x := by
  cases x with
  | infinite negative => cases finite
  | nan => cases finite
  | finite x =>
    obtain ⟨written, sound, chars, negative, number⟩ :=
      Decimal.render_spelled layout x.shortest
    refine ⟨written, sound, chars, ?_⟩
    rw [ofDecimal_congr negative number]
    exact FiniteBinary.ofDecimal_shortest x small great

end KernelGuard.Binary
