import KernelGuard.Proofs.Walks

/-! The probes walk along the same grammar that the readers read by. Behind the gap in front of a
text a probe fits where the reader of its construct reads, it refuses where the reader refuses,
and both get to the same place up to the gap there. So the probe of the whole grammar fits
exactly the texts that have a draft. -/
namespace KernelGuard

open Reader Lexeme

namespace Reader

variable {α β : Type} {first second third : Reader α}

theorem orElse_assoc : (first.orElse second).orElse third = first.orElse (second.orElse third) := by
  funext text
  cases read : first text with
  | some result => rw [orElse_reads (orElse_reads read), orElse_reads read]
  | none =>
    rw [orElse_refuses read]
    simp only [Reader.orElse, read]

/-- What stands in front of each way of a choice stands in front of the choice. -/
theorem bind_orElse {front : Reader β} {next other : β → Reader α} :
    (front >>= fun value => (next value).orElse (other value)) =
      (front >>= next).orElse (front >>= other) := by
  funext text
  cases read : front text with
  | none => rw [bind_refuses read, orElse_refuses (bind_refuses read), bind_refuses read]
  | some result =>
    rw [bind_reads read, Reader.orElse, Reader.orElse, bind_reads read, bind_reads read]

/-- What a reader leaves is an end of its text. -/
def LeavesEnd (reader : Reader α) : Prop :=
  ∀ text value rest, reader text = some (value, rest) → rest <:+ text

theorem leavesEnd_of_meets {reader : Reader α} {sites : α → List Draft.Site → Prop}
    (meets : Draft.Meets reader sites) : LeavesEnd reader := by
  intro text value rest read
  obtain ⟨met, -, passed⟩ := meets text text value rest (List.suffix_refl text) read
  exact passed.suffix

theorem leavesEnd_bind {first : Reader α} {next : α → Reader β} (front : LeavesEnd first)
    (behind : ∀ value, LeavesEnd (next value)) : LeavesEnd (first >>= next) := by
  intro text value rest read
  rcases begun : first text with _ | ⟨found, middle⟩
  · rw [bind_refuses begun] at read
    cases read
  · rw [bind_reads begun] at read
    exact (behind found middle value rest read).trans (front text found middle begun)

theorem leavesEnd_marked {reader : Reader α} (leaves : LeavesEnd reader) :
    LeavesEnd (Draft.marked reader) := by
  refine leavesEnd_bind (leavesEnd_of_meets Draft.silent_gap) fun _ => leavesEnd_bind ?_ fun _ =>
    leavesEnd_bind leaves fun _ => leavesEnd_of_meets (Draft.silent_pure _)
  rintro text _ _ ⟨⟩
  exact List.suffix_refl text

end Reader

namespace Probe

variable {α β : Type} {symbol : GrammarSymbol} {probe first second next : Probe}
  {probes : List Probe} {reader : Reader α} {table : String → Bool}

/-! ## Exact walks -/

/-- A probe goes where a reader goes. -/
def Runs (probe : Probe) (reader : Reader α) : Prop :=
  ∀ text attempts, (probe text attempts).1 = (reader text).map (·.2)

theorem runs_plain (reader : Reader α) : Runs (plain reader) reader := fun _ _ => rfl

theorem symbol_walk (symbol : GrammarSymbol) (probe : Probe) (text : List Char)
    (attempts : Attempts) :
    (Probe.symbol symbol probe text attempts).1 = (probe text attempts).1 := by
  cases reached : (probe text attempts).1 with
  | none => rw [symbol_of_refuses reached]
  | some rest => rw [symbol_of_fits reached]

theorem runs_symbol (runs : Runs probe reader) : Runs (.symbol symbol probe) reader :=
  fun text attempts => (symbol_walk symbol probe text attempts).trans (runs text attempts)

theorem runs_join {following : α → Reader β} (front : Runs first reader)
    (behind : ∀ value, Runs second (following value)) :
    Runs (first.join second) (reader >>= following) := by
  intro text attempts
  have front := front text attempts
  cases read : reader text with
  | none =>
    rw [read] at front
    rw [join_of_refuses front, bind_refuses read]
    rfl
  | some result =>
    rw [read] at front
    rw [join_of_fits front, bind_reads read]
    exact behind result.1 result.2 _

/-- A value that is made of what was read takes nothing more. -/
theorem runs_return (runs : Runs probe reader) (make : α → β) :
    Runs probe (reader >>= fun value => pure (make value)) := by
  intro text attempts
  rw [runs text attempts]
  cases read : reader text with
  | none => rw [bind_refuses read]; rfl
  | some result => rw [bind_reads read]; rfl

/-! ## Walks up to gaps -/

/-- Behind the gap in front of a text a probe goes where a reader goes, up to the gap there. -/
def Follows (probe : Probe) (reader : Reader α) : Prop :=
  ∀ text attempts, (probe (dropGap false text) attempts).1.map (dropGap false) =
    (reader text).map fun result => dropGap false result.2

/-- Both refuse, or they get to the same place up to a gap. -/
theorem Follows.cases (follows : Follows probe reader) (text : List Char) (attempts : Attempts) :
    (probe (dropGap false text) attempts).1 = none ∧ reader text = none ∨
      ∃ left value rest, (probe (dropGap false text) attempts).1 = some left ∧
        reader text = some (value, rest) ∧ dropGap false left = dropGap false rest := by
  have same := follows text attempts
  cases read : reader text with
  | none =>
    rw [read] at same
    exact .inl ⟨Option.map_eq_none_iff.mp same, rfl⟩
  | some result =>
    rw [read] at same
    obtain ⟨left, walked, there⟩ := Option.map_eq_some_iff.mp same
    exact .inr ⟨left, result.1, result.2, walked, rfl, there⟩

theorem follows_of_runs (runs : Runs probe reader) :
    Follows probe (Lexeme.gap >>= fun _ => reader) := by
  intro text attempts
  have start : Lexeme.gap text = some ((), dropGap false text) := rfl
  rw [runs, bind_reads start, Option.map_map]
  rfl

theorem follows_symbol (follows : Follows probe reader) :
    Follows (.symbol symbol probe) reader := by
  intro text attempts
  rw [symbol_walk]
  exact follows text attempts

theorem follows_return (follows : Follows probe reader) (make : α → β) :
    Follows probe (reader >>= fun value => pure (make value)) := by
  intro text attempts
  rw [follows text attempts]
  cases read : reader text with
  | none => rw [bind_refuses read]; rfl
  | some result => rw [bind_reads read]; rfl

/-- The place of an item is behind the gap in front of it. -/
theorem follows_marked (follows : Follows probe reader) : Follows probe (Draft.marked reader) := by
  intro text attempts
  have there := follows_return follows (Marked.mk (dropGap false text).length)
    (dropGap false text) attempts
  rw [Draft.dropGap_twice] at there
  exact there

theorem follows_sequence {following : α → Reader β} (front : Follows probe reader)
    (behind : ∀ value, Follows (sequence (next :: probes)) (following value)) :
    Follows (sequence (probe :: next :: probes)) (reader >>= following) := by
  intro text attempts
  change ((probe.join (gap.join (sequence (next :: probes)))) _ attempts).1.map _ = _
  rcases front.cases text attempts with ⟨refuses, refused⟩ | ⟨left, value, rest, fits, read, same⟩
  · rw [join_of_refuses refuses, bind_refuses refused]
    rfl
  · rw [join_of_fits fits, bind_reads read, join_of_fits (fits_gap left _), same]
    exact behind value rest _

theorem follows_choice {other : Reader α} (here : Follows probe reader)
    (later : Follows (choice probes) other) :
    Follows (choice (probe :: probes)) (reader.orElse other) := by
  intro text attempts
  rcases here.cases text attempts with ⟨refuses, refused⟩ | ⟨left, value, rest, fits, read, same⟩
  · rw [choice_of_refuses refuses, orElse_refuses refused]
    exact later text _
  · rw [choice_of_fits fits, orElse_reads read]
    exact congrArg some same

theorem follows_choice_last (here : Follows probe reader) : Follows (choice [probe]) reader := by
  intro text attempts
  rcases here.cases text attempts with ⟨refuses, refused⟩ | ⟨left, value, rest, fits, read, same⟩
  · rw [choice_of_refuses refuses, refused]
    rfl
  · rw [choice_of_fits fits, read]
    exact congrArg some same

theorem follows_pure (value : α) : Follows (plain (pure ())) (pure value) := by
  intro text attempts
  exact congrArg some (Draft.dropGap_twice text)

theorem follows_separated {other : α} (each : Follows probe reader) :
    Follows (optional probe) (reader.orElse (pure other)) :=
  follows_choice each (follows_choice_last (follows_pure other))

theorem follows_optional (each : Follows probe reader) :
    Follows (optional probe) reader.optional := by
  have same : ∀ text, (reader.optional text).map (fun result => dropGap false result.2) =
      ((reader >>= fun value => pure (some value)).orElse (pure none) text).map
        fun result => dropGap false result.2 := by
    intro text
    cases read : reader text with
    | none => rw [optional_refuses read, orElse_refuses (bind_refuses read)]; rfl
    | some result =>
      rw [Reader.optional, read, orElse_reads (bind_reads read)]
  intro text attempts
  rw [same]
  exact follows_separated (follows_return each some) text attempts

/-! ## Repetitions -/

/-- A probe goes along with a reader and takes something wherever it fits. -/
structure Moves (probe : Probe) (reader : Reader α) : Prop where
  follows : Follows probe reader
  advances : Advances probe
  leaves : LeavesEnd reader

/-- The reader takes something as well. -/
theorem Moves.shorter (moves : Moves probe reader) {text rest : List Char} {value : α}
    (read : reader text = some (value, rest)) : rest.length < text.length := by
  rcases moves.follows.cases text ⟨0, []⟩ with ⟨-, refused⟩ | ⟨left, _, _, fits, read', same⟩
  · rw [read] at refused
    cases refused
  · rw [read] at read'
    cases read'
    have leaves := moves.leaves text value rest read
    refine Nat.lt_of_le_of_ne leaves.length_le fun all => ?_
    obtain rfl := leaves.eq_of_length all
    have closer := moves.advances _ _ left fits
    have within := (Draft.dropGap_suffix false left).length_le
    rw [same] at within
    omega

/-- A repetition ends at the same place, from whichever side of a gap it begins. -/
private theorem more_reaches (moves : Moves probe reader) {start text : List Char}
    (same : dropGap false start = dropGap false text) (attempts : Attempts) :
    dropGap false (probe.more start attempts).1 = dropGap false (reader.rowFrom text).2 := by
  fun_induction Reader.rowFrom reader text generalizing start attempts with
  | case1 text value rest read shorter values remainder row ih =>
    rcases moves.follows.cases text attempts with ⟨-, refused⟩ | ⟨left, _, _, fits, read', there⟩
    · rw [read] at refused
      cases refused
    · rw [read] at read'
      cases read'
      have closer : left.length < start.length := by
        have within := (Draft.dropGap_suffix false start).length_le
        have advanced := moves.advances _ _ left fits
        rw [← same] at advanced
        omega
      rw [← same] at fits
      have walked : ((gap.join probe) start attempts).1 = some left := by
        rw [join_of_fits (fits_gap start attempts)]
        exact fits
      rw [more_of_fits walked closer, ih there, row]
  | case2 text value rest read short => exact absurd (moves.shorter read) short
  | case3 text refused =>
    rcases moves.follows.cases text attempts with ⟨refuses, -⟩ | ⟨_, _, _, -, read, -⟩
    · have walked : ((gap.join probe) start attempts).1 = none := by
        rw [join_of_fits (fits_gap start attempts), same]
        exact refuses
      rw [more_of_refuses walked]
      exact same
    · rw [refused] at read
      cases read

theorem follows_many1 (moves : Moves probe reader) : Follows (many1 probe) reader.many1 := by
  intro text attempts
  rw [many1_eq_join]
  rcases moves.follows.cases text attempts with ⟨refuses, refused⟩ |
    ⟨left, value, rest, fits, read, same⟩
  · rw [join_of_refuses refuses, Reader.many1, bind_refuses refused]
    rfl
  · rw [join_of_fits fits, Reader.many1, bind_reads read]
    exact congrArg some (more_reaches moves same _)

theorem follows_many (moves : Moves probe reader) : Follows (many probe) reader.many := by
  intro text attempts
  rw [Reader.many, Reader.rowFrom]
  rcases moves.follows.cases text attempts with ⟨refuses, refused⟩ |
    ⟨left, value, rest, fits, read, same⟩
  · have walked : (many1 probe (dropGap false text) attempts).1 = none := by
      rw [many1_eq_join, join_of_refuses refuses]
    rw [many, optional, choice_of_refuses walked, refused]
    exact congrArg some (Draft.dropGap_twice text)
  · have walked : (many1 probe (dropGap false text) attempts).1 =
        some (probe.more left (probe (dropGap false text) attempts).2).1 := by
      rw [many1_eq_join, join_of_fits fits]
      rfl
    rw [many, optional, choice_of_fits walked, read]
    simp only [if_pos (moves.shorter read)]
    exact congrArg some (more_reaches moves same _)

/-! ## Words -/

/-- A probe takes the word in front, if a table holds it. -/
def TakesWord (probe : Probe) (table : String → Bool) : Prop :=
  ∀ text attempts, (probe text attempts).1 =
    if table (String.ofList (text.takeWhile isWordChar)) then some (text.dropWhile isWordChar)
    else none

theorem takesWord_word (symbol : GrammarSymbol) (table : String → Bool) :
    TakesWord (Expectation.word symbol table) table := by
  intro text attempts
  rw [Expectation.word, symbol_walk]
  unfold plain mapped Reader.takeWhile
  dsimp only
  split <;> rfl

theorem takesWord_choice {others : String → Bool} (here : TakesWord probe table)
    (later : TakesWord (choice probes) others) :
    TakesWord (choice (probe :: probes)) fun word => table word || others word := by
  intro text attempts
  have here := here text attempts
  cases held : table (String.ofList (text.takeWhile isWordChar)) with
  | true =>
    rw [held, if_pos rfl] at here
    rw [choice_of_fits here]
    simp [held]
  | false =>
    rw [held, if_neg (by decide)] at here
    rw [choice_of_refuses here, later text _]
    simp [held]

theorem takesWord_none : TakesWord (choice []) fun _ => false := fun _ _ => rfl

theorem follows_tabled {reading : String → Option α} (takes : TakesWord probe table)
    (same : ∀ word, table word = (reading word).isSome) : Follows probe (tabled reading) := by
  refine follows_of_runs fun text attempts => ?_
  rw [takes text attempts, same]
  unfold mapped Reader.takeWhile
  dsimp only
  cases reading (String.ofList (text.takeWhile isWordChar)) <;> rfl

end Probe

namespace Expectation

open Probe

theorem follows_punctuation (c : Char) : Follows (punctuation c) (Lexeme.symbol c) :=
  follows_of_runs (runs_plain (char c))

theorem follows_keyword (word : String) : Follows (keyword word) (Lexeme.keyword word) :=
  follows_of_runs (runs_plain (exactly word))

private theorem runs_spelling : Runs spelling Lexeme.spelling :=
  runs_symbol (runs_plain Lexeme.spelling)

private theorem follows_sigiled (symbol : GrammarSymbol) (sigil : Char) :
    Follows (.symbol symbol ((punctuation sigil).join spelling)) (sigiled sigil) := by
  rw [sigiled, Lexeme.symbol, bind_assoc]
  exact follows_of_runs (runs_symbol (runs_join (runs_plain (char sigil)) fun _ => runs_spelling))

theorem follows_localName : Follows localName Lexeme.localName := follows_sigiled .localName '%'

theorem follows_globalName : Follows globalName Lexeme.globalName := follows_sigiled .globalName '@'

theorem follows_blockLabel : Follows blockLabel Lexeme.blockLabel :=
  follows_of_runs
    (runs_symbol (runs_join runs_spelling fun _ => runs_return (runs_plain (char ':')) _))

theorem follows_type : Follows type Draft.type := by
  refine follows_symbol (follows_tabled (takesWord_choice (takesWord_word _ _) <|
    takesWord_choice (takesWord_word _ _) <| takesWord_choice (takesWord_word _ _) <|
    takesWord_choice (takesWord_word _ _) <| takesWord_choice (takesWord_word _ _) <|
    takesWord_choice (takesWord_word _ _) <| takesWord_choice (takesWord_word _ _)
      takesWord_none) fun word => ?_)
  have turned : (fun type : Ty => decide (type.text = word)) =
      fun type => decide (word = type.text) :=
    funext fun type => decide_eq_decide.mpr eq_comm
  rw [Ty.ofText?, List.isSome_find?, turned]
  rfl

/-- A numeral goes on behind its digits if a fraction is there. -/
private theorem numeral_cases (text : List Char) :
    whole (dropGap false text) = none ∧ numeral text = none ∨
      ∃ digits middle value rest, whole (dropGap false text) = some (digits, middle) ∧
        numeral text = some (value, rest) ∧
        ((fraction middle = none ∧ rest = middle) ∨
          ∃ part, fraction middle = some (part, rest)) := by
  have start : Lexeme.gap text = some ((), dropGap false text) := rfl
  rw [numeral, bind_reads start]
  rcases signed : minus (dropGap false text) with _ | ⟨sign, behind⟩
  · exact .inl ⟨bind_refuses signed, bind_refuses signed⟩
  rw [whole, bind_reads signed, bind_reads signed]
  rcases counted : Lexeme.digits behind with _ | ⟨digits, middle⟩
  · exact .inl ⟨rfl, bind_refuses counted⟩
  rw [bind_reads counted]
  refine .inr ⟨digits, middle, ?_⟩
  rcases parted : fraction middle with _ | ⟨part, rest⟩
  · rw [bind_reads (optional_refuses parted)]
    exact ⟨_, _, rfl, rfl, .inl ⟨rfl, rfl⟩⟩
  · rw [bind_reads (optional_reads parted)]
    exact ⟨_, _, rfl, rfl, .inr ⟨part, rfl⟩⟩

/-- A decimal is tried before an integer, which begins it. -/
private theorem follows_number {probes : List Probe} {other : Reader Draft.Form}
    (later : Follows (choice probes) other) :
    Follows (choice (decimal :: integer :: probes)) (Draft.number.orElse other) := by
  intro text attempts
  have decimals : ∀ attempts, (decimal (dropGap false text) attempts).1 =
      ((whole >>= fun _ => fraction) (dropGap false text)).map (·.2) := symbol_walk _ _ _
  have integers : ∀ attempts, (integer (dropGap false text) attempts).1 =
      (whole (dropGap false text)).map (·.2) := symbol_walk _ _ _
  rcases numeral_cases text with
    ⟨none, refused⟩ | ⟨digits, middle, value, rest, begun, read, parted⟩
  · have refused' : Draft.number text = Option.none := bind_refuses refused
    rw [choice_of_refuses (by rw [decimals, bind_refuses none]; rfl),
      choice_of_refuses (by rw [integers, none]; rfl), orElse_refuses refused']
    exact later text _
  · obtain ⟨isInteger, spelled⟩ := value
    have read' : Draft.number text = some (_, rest) := bind_reads read
    rw [orElse_reads read']
    rcases parted with ⟨none, rfl⟩ | ⟨part, some'⟩
    · rw [choice_of_refuses (by rw [decimals, bind_reads begun, none]; rfl),
        choice_of_fits (by rw [integers, begun]; rfl)]
      rfl
    · rw [choice_of_fits (by rw [decimals, bind_reads begun, some']; rfl)]
      rfl

theorem follows_truth : Follows truth Lexeme.truth := by
  refine follows_tabled (takesWord_word _ _) fun word => ?_
  split_ifs <;> simp_all

theorem follows_constant : Follows constant Draft.constant :=
  follows_symbol (follows_number (follows_choice_last (follows_return follows_truth _)))

theorem follows_operand : Follows operand Draft.operand := by
  rw [Draft.operand, Draft.constant, orElse_assoc]
  exact follows_symbol (follows_marked (follows_number
    (follows_choice (follows_return follows_truth _)
      (follows_choice (follows_return follows_localName _)
        (follows_choice_last (follows_return follows_globalName _))))))

/-! ## Instructions -/

theorem follows_typedOperand {α : Type} {make : Draft.TypedOperand → α} :
    Follows (sequence [type, operand])
      (Draft.typedOperand >>= fun operand => pure (make operand)) := by
  rw [Draft.typedOperand, bind_assoc]
  refine follows_sequence follows_type fun type => ?_
  rw [bind_assoc]
  exact follows_return follows_operand _

section
variable {α : Type}

/-- A type and its operand in front of something else. -/
theorem follows_typed {next : Probe} {probes : List Probe}
    {following : Draft.TypedOperand → Reader α}
    (behind : ∀ operand, Follows (sequence (next :: probes)) (following operand)) :
    Follows (sequence (type :: operand :: next :: probes))
      (Draft.typedOperand >>= following) := by
  simp only [Draft.typedOperand, bind_assoc, pure_bind]
  exact follows_sequence follows_type fun _ => follows_sequence follows_operand fun _ => behind _

/-- Two operands of one type. -/
theorem follows_operandPair (make : Ty × Draft.Operand × Draft.Operand → α) :
    Follows (sequence [type, operand, comma, operand])
      (Draft.operandPair >>= fun pair => pure (make pair)) := by
  simp only [Draft.operandPair, bind_assoc, pure_bind]
  exact follows_sequence follows_type fun _ => follows_sequence follows_operand fun _ =>
    follows_sequence (follows_punctuation ',') fun _ => follows_return follows_operand _

/-- The target of a definition in front of something else. -/
theorem follows_defined {next : Probe} {probes : List Probe} {following : String → Reader α}
    (behind : ∀ target, Follows (sequence (next :: probes)) (following target)) :
    Follows (sequence (localName :: equals :: next :: probes)) (Draft.defined >>= following) := by
  simp only [Draft.defined, bind_assoc, pure_bind]
  exact follows_sequence follows_localName fun _ =>
    follows_sequence (follows_punctuation '=') fun _ => behind _

end

theorem follows_arith : Follows arith (Draft.defined >>= Draft.arith) :=
  follows_symbol <| follows_defined fun _ =>
    follows_sequence (follows_tabled (takesWord_word _ _) fun _ => rfl) fun _ =>
      follows_operandPair _

theorem follows_compare : Follows compare (Draft.defined >>= Draft.compare) :=
  follows_symbol <| follows_defined fun _ =>
    follows_sequence (follows_tabled (takesWord_word _ _) fun _ => rfl) fun _ =>
      follows_sequence (follows_tabled (takesWord_word _ _) fun _ => rfl) fun _ =>
        follows_operandPair _

theorem follows_convert : Follows convert (Draft.defined >>= Draft.convert) :=
  follows_symbol <| follows_defined fun _ =>
    follows_sequence (follows_tabled (takesWord_word _ _) fun _ => rfl) fun _ =>
      follows_typed fun _ => follows_sequence (follows_keyword "to") fun _ =>
        follows_return follows_type _

theorem follows_load : Follows load (Draft.defined >>= Draft.load) :=
  follows_symbol <| follows_defined fun _ => follows_sequence (follows_keyword "load") fun _ =>
    follows_sequence follows_type fun _ => follows_sequence (follows_punctuation ',') fun _ =>
      follows_typedOperand

theorem follows_elementPtr : Follows elementPtr (Draft.defined >>= Draft.elementPtr) :=
  follows_symbol <| follows_defined fun _ =>
    follows_sequence (follows_keyword "getelementptr") fun _ =>
      follows_sequence follows_type fun _ => follows_sequence (follows_punctuation ',') fun _ =>
        follows_typed fun _ => follows_sequence (follows_punctuation ',') fun _ =>
          follows_typedOperand

theorem follows_store : Follows store Draft.store :=
  follows_symbol <| follows_sequence (follows_keyword "store") fun _ => follows_typed fun _ =>
    follows_sequence (follows_punctuation ',') fun _ => follows_typedOperand

/-! ## Rows and calls -/

/-- A row goes along with its members. -/
theorem follows_row {α : Type} {member : Probe} {reader : Reader α}
    (follows : Follows member reader) (orderly : Orderly member)
    (leaves : LeavesEnd reader) : Follows (row member) (Draft.separated1 reader) := by
  have another : Moves (sequence [comma, member]) (Lexeme.symbol ',' >>= fun _ => reader) :=
    ⟨follows_sequence (follows_punctuation ',') fun _ => follows,
      advances_sequence (advances_char ',') (by simpa using orderly),
      leavesEnd_bind (leavesEnd_of_meets (Draft.silent_symbol ',')) fun _ => leaves⟩
  exact follows_sequence follows fun _ => follows_return (follows_many another) _

theorem follows_argument : Follows argument Draft.typedOperand := by
  rw [← bind_pure Draft.typedOperand]
  exact follows_symbol follows_typedOperand

private theorem follows_callee (target : Option String) :
    Follows (sequence [keyword "call", type, globalName, punctuation '(', optional (row argument),
      punctuation ')']) (Draft.call target) :=
  follows_sequence (follows_keyword "call") fun _ => follows_sequence follows_type fun _ =>
    follows_sequence follows_globalName fun _ => follows_sequence (follows_punctuation '(') fun _ =>
      follows_sequence (follows_separated (follows_row follows_argument orderly_argument
        (leavesEnd_of_meets Draft.meets_typedOperand))) fun _ =>
        follows_return (follows_punctuation ')') _

/-- Where a target stands no call without one begins. -/
private theorem call_refuses {text rest : List Char} {target : String}
    (read : Draft.defined text = some (target, rest)) : Draft.call none text = none := by
  have start : Lexeme.gap text = some ((), dropGap false text) := rfl
  have sigil : (dropGap false text).head? = some '%' := by
    by_contra other
    have refused : Lexeme.symbol '%' text = none := by
      rw [Lexeme.symbol, bind_reads start]
      cases front : dropGap false text with
      | nil => rfl
      | cons c more => exact char_refuses (fun same => other (by rw [front, same]; rfl)) more
    have none_defined : Draft.defined text = none := bind_refuses (bind_refuses refused)
    rw [none_defined] at read
    cases read
  have stopped : Lexeme.keyword "call" text = none := by
    rw [Lexeme.keyword, bind_reads start]
    exact exactly_refuses 'c' rfl (by simp [sigil])
  exact bind_refuses stopped

/-- The target of a call is optional for the probe; for the reader, calls with and without a
target are two ways of a choice. -/
theorem follows_call : Follows call
    ((Draft.defined >>= fun target => Draft.call (some target)).orElse (Draft.call none)) := by
  have target : Follows definedCall Draft.defined :=
    follows_symbol <| follows_sequence follows_localName fun _ =>
      follows_return (follows_punctuation '=') _
  refine follows_symbol fun text attempts => ?_
  change ((optional definedCall).join (Probe.gap.join _) _ attempts).1.map _ = _
  rcases target.cases text attempts with ⟨refuses, refused⟩ | ⟨left, value, rest, fits, read, same⟩
  · have stays : (optional definedCall (dropGap false text) attempts).1 =
        some (dropGap false text) := by
      rw [Probe.optional, choice_of_refuses refuses]
      rfl
    rw [join_of_fits stays, join_of_fits (fits_gap _ _), Draft.dropGap_twice,
      orElse_refuses (bind_refuses refused)]
    exact follows_callee none text _
  · have taken : (optional definedCall (dropGap false text) attempts).1 = some left := by
      rw [Probe.optional, choice_of_fits fits]
    rw [join_of_fits taken, join_of_fits (fits_gap _ _), same]
    refine (follows_callee (some value) rest _).trans ?_
    cases called : Draft.call (some value) rest with
    | none => rw [orElse_refuses ((bind_reads read).trans called), call_refuses read]
    | some result => rw [orElse_reads ((bind_reads read).trans called)]

theorem follows_instr : Follows instr Draft.instr := by
  have ways : Draft.instr = (Draft.defined >>= Draft.arith).orElse
      ((Draft.defined >>= Draft.compare).orElse ((Draft.defined >>= Draft.convert).orElse
        ((Draft.defined >>= Draft.load).orElse ((Draft.defined >>= Draft.elementPtr).orElse
          (((Draft.defined >>= fun target => Draft.call (some target)).orElse
            (Draft.call none)).orElse Draft.store))))) := by
    simp only [Draft.instr, Draft.definedInstr, Draft.definition, bind_orElse, orElse_assoc]
  rw [ways]
  exact follows_symbol <| follows_choice follows_arith <| follows_choice follows_compare <|
    follows_choice follows_convert <| follows_choice follows_load <|
    follows_choice follows_elementPtr <| follows_choice follows_call <|
    follows_choice_last follows_store

/-! ## Blocks -/

theorem follows_phi : Follows phi Draft.phi := by
  have source : Follows phiSource Draft.phiSource :=
    follows_symbol <| follows_sequence (follows_punctuation '[') fun _ =>
      follows_sequence follows_operand fun _ => follows_sequence (follows_punctuation ',') fun _ =>
        follows_sequence follows_localName fun _ => follows_return (follows_punctuation ']') _
  exact follows_symbol <| follows_defined fun _ => follows_sequence (follows_keyword "phi") fun _ =>
    follows_sequence follows_type fun _ =>
      follows_return
        (follows_row source orderly_phiSource (leavesEnd_of_meets Draft.meets_phiSource)) _

theorem follows_destination {α : Type} {make : Label → α} :
    Follows (sequence [keyword "label", localName])
      (Draft.destination >>= fun target => pure (make target)) := by
  rw [Draft.destination, bind_assoc]
  exact follows_sequence (follows_keyword "label") fun _ => follows_return follows_localName _

theorem follows_jump : Follows jump Draft.jump :=
  follows_symbol <| follows_sequence (follows_keyword "br") fun _ => follows_destination

theorem follows_branch : Follows branch Draft.branch := by
  refine follows_symbol <| follows_sequence (follows_keyword "br") fun _ => follows_typed fun _ =>
    follows_sequence (follows_punctuation ',') fun _ => ?_
  rw [Draft.destination, bind_assoc]
  exact follows_sequence (follows_keyword "label") fun _ =>
    follows_sequence follows_localName fun _ =>
      follows_sequence (follows_punctuation ',') fun _ => follows_destination

/-- A return of type `void` is tried before one with an operand. -/
theorem follows_ret : Follows ret Draft.ret := by
  refine follows_symbol <| follows_sequence (follows_keyword "ret") fun _ => fun text attempts => ?_
  have valued : Follows (sequence [type, operand]) (Draft.type >>= fun type =>
      Draft.operand >>= fun operand => pure (Draft.Terminator.ret (some ⟨type, operand⟩))) :=
    follows_sequence follows_type fun _ => follows_return follows_operand _
  have walked := takesWord_word .void (· = "void") (dropGap false text) attempts
  have read : Draft.type text =
      (Ty.ofText? (String.ofList ((dropGap false text).takeWhile isWordChar))).map
        (·, (dropGap false text).dropWhile isWordChar) := rfl
  have walked : (void (dropGap false text) attempts).1 = _ := walked
  change (choice [void, sequence [type, operand]] _ attempts).1.map _ = _
  by_cases held : String.ofList ((dropGap false text).takeWhile isWordChar) = "void"
  · rw [held] at walked read
    rw [choice_of_fits walked, bind_reads (show Draft.type text = some (.void, _) from read)]
    rfl
  · simp only [held, decide_false, Bool.false_eq_true, if_false] at walked
    rw [choice_of_refuses walked]
    refine (follows_choice_last valued text _).trans ?_
    cases typed : Ty.ofText? (String.ofList ((dropGap false text).takeWhile isWordChar)) with
    | none =>
      rw [typed] at read
      rw [bind_refuses read, bind_refuses read]
    | some type =>
      rw [typed] at read
      have other : type ≠ .void := by
        rintro rfl
        rw [Ty.ofText?] at typed
        have spelled := List.find?_some typed
        exact held (of_decide_eq_true spelled).symm
      rw [bind_reads (show Draft.type text = some (type, _) from read),
        bind_reads (show Draft.type text = some (type, _) from read), if_neg other]

theorem follows_terminator : Follows terminator Draft.terminator :=
  follows_symbol <| follows_choice follows_jump <| follows_choice follows_branch <|
    follows_choice_last follows_ret

/-! ## Repeated constructs -/

private theorem advances_localName : Advances localName :=
  advances_symbol (advances_join (advances_char '%') orderly_spelling)

private theorem advances_defining {symbol : GrammarSymbol} {probes : List Probe}
    (orderly : ∀ probe ∈ probes, Orderly probe) :
    Advances (.symbol symbol (sequence (localName :: probes))) :=
  advances_symbol (advances_sequence advances_localName orderly)

theorem moves_phi : Moves phi (Draft.marked Draft.phi) where
  follows := follows_marked follows_phi
  advances := advances_defining (by simp [equals])
  leaves := leavesEnd_marked (leavesEnd_of_meets Draft.meets_phi)

private theorem advances_call : Advances call :=
  advances_symbol <| advances_behind (orderly_optional orderly_definedCall) <|
    advances_behind orderly_gap <| advances_sequence (advances_exactly (by decide)) (by simp)

private theorem advances_store : Advances store :=
  advances_symbol <| advances_sequence (advances_exactly (by decide)) (by simp [comma])

theorem moves_instr : Moves instr (Draft.marked Draft.instr) where
  follows := follows_marked follows_instr
  advances := by
    refine advances_symbol (advances_choice ?_)
    simp only [List.forall_mem_cons, List.not_mem_nil, false_implies, implies_true, and_true]
    exact ⟨advances_defining (by simp [equals, comma, arithOp]),
      advances_defining (by simp [equals, comma, compareKind, predicate]),
      advances_defining (by simp [equals, convertOp]), advances_defining (by simp [equals, comma]),
      advances_defining (by simp [equals, comma]), advances_call, advances_store⟩
  leaves := leavesEnd_marked (leavesEnd_of_meets Draft.meets_instr)

theorem follows_block : Follows block Draft.block :=
  follows_symbol <| follows_sequence follows_blockLabel fun _ =>
    follows_sequence (follows_many moves_phi) fun _ =>
      follows_sequence (follows_many moves_instr) fun _ =>
        follows_return (follows_marked follows_terminator) _

theorem moves_block : Moves block Draft.block where
  follows := follows_block
  advances := advances_symbol <| advances_sequence
    (advances_symbol (advances_behind orderly_spelling (advances_char ':'))) (by simp)
  leaves := leavesEnd_of_meets Draft.meets_block

/-! ## Items -/

theorem follows_param : Follows param Draft.param :=
  follows_symbol <| follows_sequence follows_type fun _ => follows_return follows_localName _

theorem follows_function : Follows function Draft.function :=
  follows_symbol <| follows_sequence (follows_keyword "define") fun _ =>
    follows_sequence follows_type fun _ => follows_sequence follows_globalName fun _ =>
      follows_sequence (follows_punctuation '(') fun _ =>
        follows_sequence (follows_separated (follows_row follows_param orderly_param
          (leavesEnd_of_meets Draft.silent_param))) fun _ =>
          follows_sequence (follows_punctuation ')') fun _ =>
            follows_sequence (follows_punctuation '\x7b') fun _ =>
              follows_sequence (follows_many1 moves_block) fun _ =>
                follows_return (follows_punctuation '\x7d') _

theorem follows_global : Follows global Draft.global :=
  follows_symbol <| follows_sequence follows_globalName fun _ =>
    follows_sequence (follows_punctuation '=') fun _ =>
      follows_sequence (follows_optional (follows_symbol (follows_keyword "external"))) fun _ =>
        follows_sequence (follows_keyword "global") fun _ => follows_sequence follows_type fun _ =>
          follows_return (follows_optional (follows_marked follows_constant)) _

theorem moves_item : Moves (choice [global, function]) Draft.item where
  follows := follows_choice (follows_return follows_global _)
    (follows_choice_last (follows_return follows_function _))
  advances := by
    have global : Advances global := advances_symbol <| advances_sequence
      (advances_symbol (advances_join (advances_char '@') orderly_spelling)) (by simp [equals])
    have function : Advances function := advances_symbol <| advances_sequence
      (advances_exactly (by decide)) (by simp)
    exact advances_choice (by simp [global, function])
  leaves := leavesEnd_of_meets Draft.meets_item

/-! ## The whole grammar -/

private theorem follows_whole :
    Follows (sequence [many (choice [global, function]), ending]) Draft.whole := by
  refine follows_sequence (follows_many moves_item) fun items => ?_
  have ended : Follows ending ((Lexeme.gap >>= fun _ => Reader.ending) >>= fun _ => pure items) :=
    follows_return (follows_symbol (follows_of_runs (runs_plain Reader.ending))) _
  rwa [bind_assoc] at ended

/-- A walk that gets to an end has nothing left. -/
private theorem nothing_behind_ending {probe : Probe} {text left : List Char} {attempts : Attempts}
    (walked : (sequence [probe, ending] text attempts).1 = some left) : left = [] := by
  change ((probe.join (Probe.gap.join ending)) text attempts).1 = _ at walked
  cases reached : (probe text attempts).1 with
  | none =>
    rw [join_of_refuses reached] at walked
    cases walked
  | some middle =>
    rw [join_of_fits reached, join_of_fits (fits_gap middle _), ending, symbol_walk] at walked
    obtain ⟨⟨_, rest⟩, read, rfl⟩ := Option.map_eq_some_iff.mp walked
    unfold Reader.ending at read
    split at read
    · cases read
      rfl
    · cases read

/-- Whatever was missed before, the probe of the grammar gets to the end of a text that has a
draft, and stops in a text that has none. -/
theorem program_walk (text : List Char) (attempts : Attempts) :
    (program text attempts).1 = (Draft.ofText? text).map fun _ => [] := by
  have inside : (program text attempts).1 =
      (sequence [many (choice [global, function]), ending] (dropGap false text) attempts).1 := by
    rw [program, symbol_walk, join_of_fits (fits_gap text attempts)]
    rfl
  rw [inside, Draft.ofText?]
  rcases follows_whole.cases text attempts with
    ⟨refuses, refused⟩ | ⟨left, draft, rest, fits, read, -⟩
  · rw [refuses, refused]
    rfl
  · obtain rfl := nothing_behind_ending fits
    rw [fits, read]
    rfl

/-- The grammar that is walked to explain a misfit is the one that texts are read by. -/
theorem program_fits_iff (text : List Char) :
    Fits program text [] ↔ (Draft.ofText? text).isSome := by
  simp only [Fits, program_walk, Option.map_eq_some_iff, and_true, Option.isSome_iff_exists]
  exact ⟨fun fits => fits ⟨0, []⟩, fun fits _ => fits⟩

theorem program_refuses_iff (text : List Char) :
    Refuses program text ↔ Draft.ofText? text = none := by
  simp only [Refuses, program_walk, Option.map_eq_none_iff]
  exact ⟨fun refuses => refuses ⟨0, []⟩, fun refused _ => refused⟩

end Expectation

end KernelGuard
