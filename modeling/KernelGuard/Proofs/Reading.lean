import KernelGuard.Draft.Grammar
import Mathlib.Data.List.Basic

/-! How readers take a text apart piece by piece. Each kind of reader has a statement
about the text it takes and the rest it leaves, and one about what it refuses; a word
ends where the next character cannot continue it. -/
namespace KernelGuard

namespace Reader

variable {α β : Type}

/-- A text does not go on with a character of a class. -/
def Stops (class? : Char → Bool) (text : List Char) : Prop :=
  ∀ c ∈ text.head?, class? c = false

theorem stops_nil {class? : Char → Bool} : Stops class? [] := by
  simp [Stops]

theorem stops_cons {class? : Char → Bool} {c : Char} (other : class? c = false) (rest : List Char) :
    Stops class? (c :: rest) := by
  simpa [Stops] using other

theorem bind_reads {first : Reader α} {next : α → Reader β}
    (read : first text = some (value, rest)) : (first >>= next) text = next value rest := by
  change Reader.bind first next text = _
  simp only [Reader.bind, read]

theorem bind_refuses {first : Reader α} {next : α → Reader β} (refused : first text = none) :
    (first >>= next) text = none := by
  change Reader.bind first next text = _
  simp only [Reader.bind, refused]

instance : LawfulMonad Reader :=
  LawfulMonad.mk' _
    (fun reader => by
      funext text
      cases read : reader text with
      | none => exact bind_refuses read
      | some result => exact bind_reads read)
    (fun _ _ => rfl)
    (fun reader first second => by
      funext text
      cases read : reader text with
      | none => rw [bind_refuses (bind_refuses read), bind_refuses read]
      | some result =>
        rw [bind_reads read]
        change Reader.bind (reader >>= first) second text = Reader.bind (first result.1) second _
        rw [Reader.bind, bind_reads read]
        rfl)

theorem pure_reads (value : α) (text : List Char) :
    (pure value : Reader α) text = some (value, text) := rfl

theorem orElse_reads {first second : Reader α} (read : first text = some result) :
    first.orElse second text = some result := by
  simp only [Reader.orElse, read]

theorem orElse_refuses {first second : Reader α} (refused : first text = none) :
    first.orElse second text = second text := by
  simp only [Reader.orElse, refused]

theorem optional_reads {reader : Reader α} (read : reader text = some (value, rest)) :
    reader.optional text = some (some value, rest) := by
  simp only [optional, read]

theorem optional_refuses {reader : Reader α} (refused : reader text = none) :
    reader.optional text = some (none, text) := by
  simp only [optional, refused]

theorem mapped_reads {reader : Reader α} {table : α → Option β}
    (read : reader text = some (value, rest)) :
    reader.mapped table text = (table value).map (·, rest) := by
  simp only [mapped, read]

theorem char_reads (c : Char) (rest : List Char) : char c (c :: rest) = some ((), rest) := by
  simp [char]

theorem char_refuses {c d : Char} (different : d ≠ c) (rest : List Char) :
    char c (d :: rest) = none := by
  simp [char, different]

theorem exactly_reads (word : String) (rest : List Char) :
    exactly word (word.toList ++ rest) = some ((), rest) := by
  have front : List.isPrefixOf? word.toList (word.toList ++ rest) = some rest :=
    List.isPrefixOf?_eq_some_iff_append_eq.mpr rfl
  simp only [exactly, front, Option.map_some]

theorem exactly_refuses {word : String} {text : List Char} (c : Char)
    (first : word.toList.head? = some c) (different : ∀ d ∈ text.head?, d ≠ c) :
    exactly word text = none := by
  cases found : List.isPrefixOf? word.toList text with
  | none => simp only [exactly, found, Option.map_none]
  | some rest =>
    obtain rfl := List.isPrefixOf?_eq_some_iff_append_eq.mp found
    exact absurd rfl (different c (by simp [List.head?_append, first]))

theorem takeWhile_reads {class? : Char → Bool} {run : List Char} (all : ∀ c ∈ run, class? c = true)
    (stops : Stops class? rest) : takeWhile class? (run ++ rest) = some (run, rest) := by
  have ends : rest.takeWhile class? = [] ∧ rest.dropWhile class? = rest := by
    cases rest with
    | nil => exact ⟨rfl, rfl⟩
    | cons c rest =>
      have other : class? c = false := stops c (by simp)
      simp [other]
  simp [takeWhile, List.takeWhile_append_of_pos all, List.dropWhile_append_of_pos all, ends]

theorem takeWhile1_reads {class? : Char → Bool} {run : List Char} (some' : run ≠ [])
    (all : ∀ c ∈ run, class? c = true) (stops : Stops class? rest) :
    takeWhile1 class? (run ++ rest) = some (run, rest) := by
  rw [takeWhile1, mapped_reads (takeWhile_reads all stops), if_neg some', Option.map_some]

theorem takeWhile1_refuses {class? : Char → Bool} (stops : Stops class? text) :
    takeWhile1 class? text = none := by
  have nothing : takeWhile class? text = some ([], text) :=
    (takeWhile_reads (by simp) stops : takeWhile class? ([] ++ text) = _)
  rw [takeWhile1, mapped_reads nothing, if_pos rfl, Option.map_none]

/-- A row of values one behind the other, each of which takes something. -/
inductive Row (reader : Reader α) : List Char → List α → List Char → Prop where
  | nil : Row reader text [] text
  | cons (read : reader text = some (value, middle)) (shorter : middle.length < text.length)
      (more : Row reader middle values rest) : Row reader text (value :: values) rest

theorem Row.append {reader : Reader α} (front : Row reader text values middle)
    (behind : Row reader middle more rest) : Row reader text (values ++ more) rest := by
  induction front with
  | nil => exact behind
  | cons read shorter _ ih => exact .cons read shorter (ih behind)

/-- A repetition takes a row up to where the reader refuses. -/
theorem many_reads {reader : Reader α} (row : Row reader text values rest)
    (refused : reader rest = none) : reader.many text = some (values, rest) := by
  have taken : reader.rowFrom text = (values, rest) := by
    induction row with
    | nil => rw [rowFrom, refused]
    | cons read shorter _ ih =>
      rw [rowFrom, read]
      simp only [if_pos shorter, ih refused]
  rw [many, taken]

end Reader

namespace Lexeme

open Reader

variable {α : Type}

/-- A character that neither is a blank nor begins a comment. -/
def isSolid (c : Char) : Bool := !isBlank c && c ≠ ';'

/-- A text begins with neither a blank nor a comment. -/
def Solid (text : List Char) : Prop := ∀ c ∈ text.head?, isSolid c = true

theorem solid_cons {c : Char} (solid : isSolid c = true) (rest : List Char) : Solid (c :: rest) := by
  simpa [Solid] using solid

theorem dropGap_solid (solid : Solid text) : dropGap false text = text := by
  cases text with
  | nil => rfl
  | cons c rest =>
    have first : isSolid c = true := solid c (by simp)
    simp only [isSolid, Bool.and_eq_true, Bool.not_eq_true', decide_eq_true_eq] at first
    simp [dropGap, first]

theorem gap_solid (solid : Solid text) : gap text = some ((), text) := by
  rw [gap, dropGap_solid solid]

/-- A reader lets a gap stand in front. -/
def Gapped (reader : Reader α) : Prop :=
  ∀ (c : Char) (text : List Char), isBlank c = true → reader (c :: text) = reader text

theorem gapped_gap (next : Unit → Reader α) : Gapped (gap >>= next) := by
  intro c text blank
  have same : gap (c :: text) = gap text := by simp [gap, dropGap, blank]
  change Reader.bind gap next (c :: text) = Reader.bind gap next text
  simp only [Reader.bind, same]

theorem gapped_bind {first : Reader α} (gapped : Gapped first) (next : α → Reader β) :
    Gapped (first >>= next) := by
  intro c text blank
  change Reader.bind first next (c :: text) = Reader.bind first next text
  simp only [Reader.bind, gapped c text blank]

theorem gapped_orElse {first second : Reader α} (left : Gapped first) (right : Gapped second) :
    Gapped (first.orElse second) := by
  intro c text blank
  simp only [Reader.orElse, left c text blank, right c text blank]

theorem gapped_symbol (c : Char) : Gapped (symbol c) := gapped_gap _

theorem gapped_keyword (word : String) : Gapped (keyword word) := gapped_gap _

theorem gapped_tabled (table : String → Option α) : Gapped (tabled table) := gapped_gap _

theorem gapped_localName : Gapped localName := gapped_bind (gapped_symbol '%') _

theorem gapped_globalName : Gapped globalName := gapped_bind (gapped_symbol '@') _

theorem gapped_blockLabel : Gapped blockLabel := gapped_gap _

theorem symbol_reads {c : Char} (solid : isSolid c = true) (rest : List Char) :
    symbol c (c :: rest) = some ((), rest) := by
  rw [symbol, bind_reads (gap_solid (solid_cons solid rest)), char_reads]

theorem symbol_refuses {c : Char} (solid : Solid text) (other : ∀ d ∈ text.head?, d ≠ c) :
    symbol c text = none := by
  rw [symbol, bind_reads (gap_solid solid)]
  cases text with
  | nil => rfl
  | cons d rest => exact char_refuses (other d (by simp)) rest

theorem keyword_reads {word : String} (solid : Solid (word.toList ++ rest)) :
    keyword word (word.toList ++ rest) = some ((), rest) := by
  rw [keyword, bind_reads (gap_solid solid), exactly_reads]

theorem keyword_refuses {word : String} (solid : Solid text) (c : Char)
    (first : word.toList.head? = some c) (different : ∀ d ∈ text.head?, d ≠ c) :
    keyword word text = none := by
  rw [keyword, bind_reads (gap_solid solid), exactly_refuses c first different]

theorem isSolid_of_isNameChar {c : Char} (name : isNameChar c = true) : isSolid c = true := by
  simp only [isSolid, Bool.and_eq_true, Bool.not_eq_true', decide_eq_true_eq]
  constructor
  · refine Bool.eq_false_iff.mpr fun blank => ?_
    simp only [isBlank, Bool.or_eq_true, decide_eq_true_eq] at blank
    rcases blank with ((rfl | rfl) | rfl) | rfl <;> exact absurd name (by decide)
  · rintro rfl
    exact absurd name (by decide)

theorem isNameChar_of_isWordChar {c : Char} (word : isWordChar c = true) : isNameChar c = true := by
  simp only [isWordChar, Bool.or_eq_true, decide_eq_true_eq] at word
  simp only [isNameChar, Bool.or_eq_true, decide_eq_true_eq]
  exact .inl word

/-- Where a name cannot go on, a word cannot either. -/
theorem stops_word (stops : Stops isNameChar text) : Stops isWordChar text := by
  intro c first
  refine Bool.eq_false_iff.mpr fun word => ?_
  exact absurd (isNameChar_of_isWordChar word) (by simp [stops c first])

/-- A spelling that a name may have. -/
def Spelled (spelling : String) : Prop :=
  spelling.toList ≠ [] ∧ ∀ c ∈ spelling.toList, isNameChar c = true

/-- A spelling that a word of a table may have. -/
def isWord (word : String) : Bool := !word.toList.isEmpty && word.toList.all isWordChar

theorem solid_word (word : isWord name = true) (rest : List Char) :
    Solid (name.toList ++ rest) := by
  simp only [isWord, Bool.and_eq_true, Bool.not_eq_true', List.isEmpty_eq_false_iff,
    List.all_eq_true] at word
  obtain ⟨some', letters⟩ := word
  cases spelled : name.toList with
  | nil => exact absurd spelled some'
  | cons c more =>
    have word := letters c (by simp [spelled])
    exact solid_cons (isSolid_of_isNameChar (isNameChar_of_isWordChar word)) _

/-- A word that stands alone is what a table says about it. -/
theorem tabled_reads {table : String → Option α} (word : isWord name = true)
    (stops : Stops isNameChar rest) :
    tabled table (name.toList ++ rest) = (table name).map (·, rest) := by
  have letters : ∀ c ∈ name.toList, isWordChar c = true := by
    simp only [isWord, Bool.and_eq_true, List.all_eq_true] at word
    exact word.2
  rw [tabled, bind_reads (gap_solid (solid_word word rest)),
    mapped_reads (takeWhile_reads letters (stops_word stops)), String.ofList_toList]

/-- Where no word begins, a table is asked about the empty one. -/
theorem tabled_refuses {table : String → Option α} (empty : table "" = none)
    (solid : Solid text) (stops : Stops isWordChar text) : tabled table text = none := by
  have nothing : takeWhile isWordChar text = some ([], text) :=
    (takeWhile_reads (by simp) stops : takeWhile isWordChar ([] ++ text) = _)
  rw [tabled, bind_reads (gap_solid solid), mapped_reads nothing]
  simp [empty]

theorem spelling_reads (spelled : Spelled name) (stops : Stops isNameChar rest) :
    spelling (name.toList ++ rest) = some (name, rest) := by
  rw [spelling, bind_reads (takeWhile1_reads spelled.1 spelled.2 stops), String.ofList_toList,
    pure_reads]

theorem localName_reads (spelled : Spelled name) (stops : Stops isNameChar rest) :
    localName ('%' :: (name.toList ++ rest)) = some (name, rest) := by
  rw [localName, sigiled, bind_reads (symbol_reads rfl _), spelling_reads spelled stops]

theorem globalName_reads (spelled : Spelled name) (stops : Stops isNameChar rest) :
    globalName ('@' :: (name.toList ++ rest)) = some (name, rest) := by
  rw [globalName, sigiled, bind_reads (symbol_reads rfl _),
    spelling_reads spelled stops]

end Lexeme

end KernelGuard
