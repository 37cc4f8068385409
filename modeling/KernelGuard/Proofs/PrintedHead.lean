import KernelGuard.Proofs.PrintParse
import KernelGuard.Proofs.Walks

/-! How a printed program begins. Whatever its instructions are, and even if no text stands
for its constants, a walk along the grammar gets past the head of its first function or into
its first global, and misses something behind the place where it began. -/
namespace KernelGuard

open Reader Lexeme Probe

/-- What a function shows apart from its instructions. -/
structure Func.Head where
  name : String
  params : List Temp
  labels : List Label
deriving DecidableEq

def Func.head (func : Func) : Func.Head :=
  ⟨func.name, func.params, func.blocks.map (·.label)⟩

/-- The names of a head can be written, and there is a block. -/
structure Func.Head.Spelled (head : Func.Head) : Prop where
  name : Lexeme.Spelled head.name
  params : ∀ param ∈ head.params, param.IsTarget
  labels : ∀ label ∈ head.labels, Lexeme.Spelled label
  nonempty : head.labels ≠ []

/-- The names of the globals and the heads of the functions can be written. -/
structure Program.Headed (program : Program) : Prop where
  globals : ∀ global ∈ program.globals, Lexeme.Spelled global.name
  functions : ∀ func ∈ program.functions, func.head.Spelled

namespace Expectation

variable {text rest : List Char} {limit : Nat}

theorem dropGap_blank {c : Char} (blank : Lexeme.isBlank c = true) (text : List Char) :
    dropGap false (c :: text) = dropGap false text := by
  simp [dropGap, blank]

/-- A blank in front of something solid is skipped. -/
theorem dropGap_behind {c : Char} (blank : Lexeme.isBlank c = true) (solid : Solid text) :
    dropGap false (c :: text) = text :=
  (dropGap_blank blank text).trans (dropGap_solid solid)

/-! ## Words and names -/

theorem solid_spelled {name : String} (spelled : Spelled name) (rest : List Char) :
    Solid (name.toList ++ rest) := by
  obtain ⟨nonempty, letters⟩ := spelled
  obtain ⟨c, more, text⟩ := List.exists_cons_of_ne_nil nonempty
  rw [text]
  exact solid_cons (isSolid_of_isNameChar (letters c (by simp [text]))) _

section
variable {symbol : GrammarSymbol} {table : String → Bool} {name : String}

private theorem word_taken (table : String → Bool) (letters : ∀ c ∈ name.toList, isWordChar c = true)
    (stops : Stops isWordChar rest) :
    mapped (takeWhile isWordChar) (fun letters =>
        if table (String.ofList letters) then some () else none) (name.toList ++ rest) =
      (if table name then some () else none).map (·, rest) := by
  rw [mapped_reads (takeWhile_reads letters stops), String.ofList_toList]

theorem fits_word (letters : ∀ c ∈ name.toList, isWordChar c = true)
    (stops : Stops isWordChar rest) (known : table name = true) :
    Fits (word symbol table) (name.toList ++ rest) rest := by
  have taken := word_taken table letters stops
  rw [if_pos known, Option.map_some] at taken
  exact fits_symbol (fits_plain taken)

theorem refuses_word (letters : ∀ c ∈ name.toList, isWordChar c = true)
    (stops : Stops isWordChar rest) (unknown : table name = false) :
    Refuses (word symbol table) (name.toList ++ rest) := by
  refine refuses_symbol (refuses_plain ?_)
  rw [word_taken table letters stops, unknown]
  rfl

end

theorem fits_type (type : Ty) (stops : Stops isWordChar rest) :
    Fits Expectation.type (type.text.toList ++ rest) rest := by
  have letters : ∀ c ∈ type.text.toList, isWordChar c = true :=
    List.all_eq_true.mp (by cases type <;> decide)
  have here : ∀ {symbol : GrammarSymbol} {table : String → Bool} {probes : List Probe},
      table type.text = true →
      Fits (choice (word symbol table :: probes)) (type.text.toList ++ rest) rest :=
    fun known => fits_choice (fits_word letters stops known)
  have later : ∀ {symbol : GrammarSymbol} {table : String → Bool} {probes : List Probe},
      table type.text = false → Fits (choice probes) (type.text.toList ++ rest) rest →
      Fits (choice (word symbol table :: probes)) (type.text.toList ++ rest) rest :=
    fun unknown => fits_choice_later (refuses_word letters stops unknown)
  refine fits_symbol ?_
  cases type with
  | i1 => exact here rfl
  | i32 => exact later rfl (here rfl)
  | i64 => exact later rfl (later rfl (here rfl))
  | float => exact later rfl (later rfl (later rfl (here rfl)))
  | double => exact later rfl (later rfl (later rfl (later rfl (here rfl))))
  | ptr => exact later rfl (later rfl (later rfl (later rfl (later rfl (here rfl)))))
  | void => exact later rfl (later rfl (later rfl (later rfl (later rfl (later rfl (here rfl))))))

/-- No type begins where no word does. -/
theorem refuses_type (stops : Stops isWordChar text) : Refuses Expectation.type text := by
  refine refuses_symbol (refuses_choice ?_)
  have none : ∀ {symbol : GrammarSymbol} {table : String → Bool}, table "" = false →
      Refuses (word symbol table) text := by
    intro symbol table unknown
    have letters : ∀ c ∈ "".toList, isWordChar c = true := by simp
    simpa using refuses_word letters stops unknown
  simp only [List.forall_mem_cons, Expectation.void]
  exact ⟨none rfl, none rfl, none rfl, none rfl, none rfl, none rfl, none rfl, by simp⟩

theorem fits_punctuation (c : Char) (rest : List Char) : Fits (punctuation c) (c :: rest) rest :=
  fits_plain (char_reads c rest)

theorem refuses_punctuation {c d : Char} (different : d ≠ c) (rest : List Char) :
    Refuses (punctuation c) (d :: rest) :=
  refuses_plain (char_refuses different rest)

theorem fits_keyword (text : String) (rest : List Char) :
    Fits (keyword text) (text.toList ++ rest) rest :=
  fits_plain (exactly_reads text rest)

theorem fits_spelling {name : String} (spelled : Spelled name) (stops : Stops isNameChar rest) :
    Fits spelling (name.toList ++ rest) rest :=
  fits_symbol (fits_plain (spelling_reads spelled stops))

theorem fits_localName {name : String} (spelled : Spelled name) (stops : Stops isNameChar rest) :
    Fits localName ('%' :: (name.toList ++ rest)) rest :=
  fits_symbol (fits_join (fits_punctuation '%' _) (fits_spelling spelled stops))

theorem fits_globalName {name : String} (spelled : Spelled name) (stops : Stops isNameChar rest) :
    Fits globalName ('@' :: (name.toList ++ rest)) rest :=
  fits_symbol (fits_join (fits_punctuation '@' _) (fits_spelling spelled stops))

theorem fits_blockLabel {label : Label} (spelled : Spelled label) (rest : List Char) :
    Fits blockLabel (label.toList ++ ':' :: rest) rest :=
  fits_symbol (fits_join (fits_spelling spelled (stops_cons rfl rest)) (fits_punctuation ':' rest))

/-! ## The head of a function -/

theorem fits_param {target : Temp} (written : target.IsTarget) (stops : Stops isNameChar rest) :
    Fits param ((typed target.type target.text).toList ++ rest) rest := by
  have text : (typed target.type target.text).toList ++ rest = target.type.text.toList ++
      ' ' :: '%' :: (target.name.spelling.toList ++ rest) := by
    simp [typed, Temp.text, Name.text, written.isLocal]
  rw [text]
  exact fits_symbol (fits_sequence (fits_type target.type (stops_cons rfl _))
    (dropGap_behind rfl (solid_cons rfl _)) (fits_localName written.spelled stops))

/-- What a parameter that is not the first is written as. -/
private def nextParam (target : Temp) : List Char :=
  ", ".toList ++ (typed target.type target.text).toList

private theorem solid_typed (type : Ty) (operand : String) (rest : List Char) :
    Solid ((typed type operand).toList ++ rest) := by
  rw [ReadBack.typed_toList, List.append_assoc]
  exact solid_word (ReadBack.type_isWord type) _

private theorem fits_nextParam {target : Temp} (written : target.IsTarget)
    (stops : Stops isNameChar rest) :
    Fits (sequence [comma, param]) (nextParam target ++ rest) rest := by
  change Fits _ (',' :: ' ' :: ((typed target.type target.text).toList ++ rest)) rest
  exact fits_sequence (fits_punctuation ',' _) (dropGap_behind rfl (solid_typed _ _ _))
    (fits_param written stops)

private theorem stops_nextParams (params : List Temp) (tail : List Char) :
    Stops isNameChar (params.flatMap nextParam ++ ')' :: tail) ∧
      Solid (params.flatMap nextParam ++ ')' :: tail) := by
  cases params with
  | nil => exact ⟨stops_cons rfl _, solid_cons rfl _⟩
  | cons param params => exact ⟨stops_cons rfl _, solid_cons rfl _⟩

private theorem fits_nextParams {params : List Temp} (written : ∀ param ∈ params, param.IsTarget)
    (tail : List Char) : Fits (further (sequence [comma, param]))
      (params.flatMap nextParam ++ ')' :: tail) (')' :: tail) := by
  induction params with
  | nil =>
    have closing : dropGap false (')' :: tail) = ')' :: tail :=
      dropGap_solid (solid_cons rfl tail)
    refine fits_further_none fun attempts => ?_
    rw [List.flatMap_nil, List.nil_append, join_of_fits (fits_gap _ attempts), closing]
    exact refuses_sequence (refuses_punctuation (by decide) tail) _
  | cons param params ih =>
    obtain ⟨here, later⟩ := List.forall_mem_cons.mp written
    obtain ⟨stops, -⟩ := stops_nextParams params tail
    have fits := fits_nextParam here stops
    rw [List.flatMap_cons, List.append_assoc]
    refine fits_further (fits_join (fits_gap _) ?_) ?_ (ih later)
    · have solid : Solid (nextParam param ++ (params.flatMap nextParam ++ ')' :: tail)) :=
        solid_cons rfl _
      rwa [dropGap_solid solid]
    · have some' : 0 < (nextParam param).length := by simp [nextParam]
      simp only [List.length_append]
      omega

private theorem solid_params (params : List Temp) (tail : List Char) : Solid
    ((commaSeparated (params.map fun param => typed param.type param.text)).toList ++
      ')' :: tail) := by
  cases params with
  | nil => exact solid_cons rfl tail
  | cons first more =>
    rw [List.map_cons, commaSeparated, ReadBack.intercalate_toList, List.append_assoc]
    exact solid_typed _ _ _

/-- The parameters of a function are walked through up to the closing bracket. -/
theorem fits_params {params : List Temp} (written : ∀ param ∈ params, param.IsTarget)
    (tail : List Char) : Fits (optional (row param))
      ((commaSeparated (params.map fun param => typed param.type param.text)).toList ++ ')' :: tail)
      (')' :: tail) := by
  cases params with
  | nil =>
    refine fits_optional_none (refuses_sequence (refuses_symbol (refuses_sequence ?_)))
    exact refuses_type (stops_cons rfl tail)
  | cons first more =>
    obtain ⟨here, later⟩ := List.forall_mem_cons.mp written
    have text : (commaSeparated ((first :: more).map fun param =>
        typed param.type param.text)).toList ++ ')' :: tail =
          (typed first.type first.text).toList ++ (more.flatMap nextParam ++ ')' :: tail) := by
      rw [List.map_cons, commaSeparated, ReadBack.intercalate_toList, List.flatMap_map,
        List.append_assoc]
      rfl
    obtain ⟨stops, solid⟩ := stops_nextParams more tail
    rw [text]
    refine fits_optional (fits_sequence (fits_param here stops) (dropGap_solid solid) ?_)
    cases more with
    | nil =>
      refine fits_optional_none ?_
      rw [many1_eq_join]
      exact refuses_join (refuses_sequence (refuses_punctuation (by decide) tail))
    | cons second more =>
      obtain ⟨next, others⟩ := List.forall_mem_cons.mp later
      refine fits_optional ?_
      rw [many1_eq_join, List.flatMap_cons, List.append_assoc]
      exact fits_join (fits_nextParam next (stops_nextParams more tail).1)
        (fits_nextParams others tail)

/-! ## What is missed in it -/

/-- No constant begins with a letter or a sigil. -/
theorem misses_constant {c : Char} (noDigit : c.isDigit = false) (noSign : c ≠ '-')
    (rest : List Char) (inside : (c :: rest).length < limit) :
    MissesBelow limit (optional constant) (c :: rest) := by
  have unsigned : minus (c :: rest) = some ([], c :: rest) := by
    simp [minus, kept, Reader.orElse, char_refuses noSign, bind_refuses, pure_reads]
  have noWhole : whole (c :: rest) = none := by
    rw [whole, bind_reads unsigned]
    exact takeWhile1_refuses (stops_cons noDigit rest)
  refine misses_optional (misses_inside (misses_choice ?_ (by simp [truth])))
  exact misses_symbol (refuses_plain (bind_refuses noWhole)) inside

/-- A phi is missed behind the label of a block, or behind the phis there. -/
theorem misses_block {label : Label} (spelled : Spelled label) (rest : List Char)
    (inside : rest.length < limit) :
    MissesBelow limit block (label.toList ++ ':' :: rest) := by
  refine misses_inside (misses_later (fits_blockLabel spelled rest) rfl ?_)
  refine misses_first (misses_many ?_ ?_) (by simp)
  · exact advances_join (advances_symbol (advances_join (advances_char '%') orderly_spelling))
      (orderly_join orderly_gap (orderly_sequence (by simp [equals])))
  · exact Nat.lt_of_le_of_lt (Draft.dropGap_suffix false rest).length_le inside

/-- A function is printed head first, up to the label of its first block. -/
private theorem head_printed {func : Func} {first : Block} {more : List Block}
    (blocks : func.blocks = first :: more) (rest : List Char) :
    ∃ tail, func.text.toList ++ rest = "define".toList ++ ' ' ::
      (func.returnType.text.toList ++ ' ' :: '@' :: (func.name.toList ++ '(' ::
        ((commaSeparated (func.params.map fun param => typed param.type param.text)).toList ++
          ')' :: ' ' :: '{' :: '\n' :: (first.label.toList ++ ':' :: tail)))) := by
  refine ⟨'\n' :: (("\n".intercalate (first.code.map fun instr => "  " ++ instr.text)).toList ++
    ((more.map Block.text).flatMap (fun piece => "\n".toList ++ piece.toList) ++
      '\n' :: '}' :: rest)), ?_⟩
  rw [Func.text, blocks, List.map_cons, String.toList_append, String.toList_append,
    String.toList_append, ReadBack.intercalate_toList, Block.text]
  simp

theorem misses_function {func : Func} (headed : func.head.Spelled) (rest : List Char)
    (inside : (func.text.toList ++ rest).length ≤ limit) :
    MissesBelow limit function (func.text.toList ++ rest) := by
  obtain ⟨name, params, labels, nonempty⟩ := headed
  obtain ⟨first, more, blocks⟩ : ∃ first more, func.blocks = first :: more := by
    refine List.exists_cons_of_ne_nil fun none => nonempty ?_
    simp [Func.head, none]
  have label : Lexeme.Spelled first.label := by
    refine labels _ ?_
    simp [Func.head, blocks]
  obtain ⟨tail, text⟩ := head_printed blocks rest
  have behind : tail.length < limit := by
    rw [text] at inside
    simp only [List.length_append, List.length_cons] at inside
    omega
  rw [text]
  refine misses_inside (misses_later (fits_keyword "define" _)
    (dropGap_behind rfl (solid_word (ReadBack.type_isWord _) _)) ?_)
  refine misses_later (fits_type _ (stops_cons rfl _)) (dropGap_behind rfl (solid_cons rfl _)) ?_
  refine misses_later (fits_globalName name (stops_cons rfl _)) (dropGap_solid (solid_cons rfl _)) ?_
  refine misses_later (fits_punctuation '(' _) (dropGap_solid (solid_params _ _)) ?_
  refine misses_later (fits_params params _) (dropGap_solid (solid_cons rfl _)) ?_
  refine misses_later (fits_punctuation ')' _) (dropGap_behind rfl (solid_cons rfl _)) ?_
  refine misses_later (fits_punctuation '{' _) (dropGap_behind rfl (solid_spelled label _)) ?_
  exact misses_first (misses_many1 (misses_block label tail behind) orderly_block) (by simp)

/-- A global without a value goes on to where its value might stand. -/
theorem misses_global {g : Global} (spelled : Spelled g.name) {c : Char} {tail more : List Char}
    (next : dropGap false tail = c :: more) (noDigit : c.isDigit = false) (noSign : c ≠ '-')
    (inside : (g.text.toList ++ '\n' :: tail).length ≤ limit) :
    MissesBelow limit global (g.text.toList ++ '\n' :: tail) := by
  obtain ⟨name, type, initial⟩ := g
  cases initial with
  | none =>
    have text : (Global.mk name type none).text.toList ++ '\n' :: tail = '@' :: (name.toList ++
        ' ' :: '=' :: ' ' :: ("external".toList ++ ' ' :: ("global".toList ++
          ' ' :: (type.text.toList ++ '\n' :: tail)))) := by
      simp [Global.text]
    have behind : (c :: more).length < limit := by
      have shorter := (Draft.dropGap_suffix false tail).length_le
      rw [next] at shorter
      simp only [List.length_append, List.length_cons] at inside shorter ⊢
      omega
    rw [text]
    refine misses_inside (misses_later (fits_globalName spelled (stops_cons rfl _))
      (dropGap_behind rfl (solid_cons rfl _)) ?_)
    refine misses_later (fits_punctuation '=' _) (dropGap_behind rfl (solid_word rfl _)) ?_
    refine misses_later (fits_optional (fits_symbol (fits_keyword "external" _)))
      (dropGap_behind rfl (solid_word rfl _)) ?_
    refine misses_later (fits_keyword "global" _)
      (dropGap_behind rfl (solid_word (ReadBack.type_isWord type) _)) ?_
    refine misses_later (fits_type type (stops_cons rfl _)) ((dropGap_blank rfl tail).trans next) ?_
    exact misses_constant noDigit noSign more behind
  | some value =>
    have text : (Global.mk name type (some value)).text.toList ++ '\n' :: tail =
        '@' :: (name.toList ++ ' ' :: '=' :: ' ' :: ("global".toList ++ ' ' ::
          ((typed type value.text).toList ++ '\n' :: tail))) := by
      simp [Global.text]
    have noExternal : ∀ rest, Refuses (keyword "external") ("global".toList ++ rest) :=
      fun rest => refuses_plain (exactly_refuses 'e' rfl (by simp))
    rw [text] at inside ⊢
    refine misses_inside (misses_later (fits_globalName spelled (stops_cons rfl _))
      (dropGap_behind rfl (solid_cons rfl _)) ?_)
    refine misses_later (fits_punctuation '=' _) (dropGap_behind rfl (solid_word rfl _)) ?_
    refine misses_first (misses_optional (misses_symbol (noExternal _) ?_)) (by simp)
    simp only [List.length_append, List.length_cons] at inside ⊢
    omega

theorem refuses_global {c : Char} (other : c ≠ '@') (rest : List Char) :
    Refuses global (c :: rest) :=
  refuses_symbol (refuses_sequence (refuses_symbol (refuses_join (refuses_punctuation other rest))))

private theorem global_sigil (g : Global) : ∃ letters, g.text.toList = '@' :: letters := by
  unfold Global.text
  split <;> simp

private theorem function_word (func : Func) : ∃ letters, func.text.toList = 'd' :: letters := by
  simp [Func.text]

/-- A program without globals begins with a function, and something is missed in it. -/
private theorem misses_function_first {func : Func} (headed : func.head.Spelled)
    (tail : List Char) : let text := func.text.toList ++ tail
    Solid text ∧ MissesBelow text.length (choice [global, function]) text := by
  obtain ⟨letters, define⟩ := function_word func
  refine ⟨?_, misses_choice_later ?_ (misses_choice ?_ (by simp))⟩
  · rw [define]
    exact solid_cons rfl _
  · rw [define]
    exact refuses_global (by decide) _
  · exact misses_function headed tail (Nat.le_refl _)

/-- A program with globals begins with one, and something is missed in it or right behind it. -/
private theorem misses_global_first {g : Global} (spelled : Spelled g.name) (more : List Global)
    (func : Func) (tail : List Char) :
    let text := g.text.toList ++ '\n' :: ((more.flatMap fun global => global.text.toList ++ ['\n']) ++
      '\n' :: (func.text.toList ++ tail))
    Solid text ∧ MissesBelow text.length (choice [global, function]) text := by
  obtain ⟨c, rest, next, noDigit, noSign⟩ : ∃ c rest, dropGap false
      ((more.flatMap fun global => global.text.toList ++ ['\n']) ++
        '\n' :: (func.text.toList ++ tail)) = c :: rest ∧ c.isDigit = false ∧ c ≠ '-' := by
    cases more with
    | nil =>
      obtain ⟨letters, define⟩ := function_word func
      rw [define]
      exact ⟨'d', letters ++ tail, rfl, rfl, by decide⟩
    | cons second more =>
      obtain ⟨letters, sigil⟩ := global_sigil second
      rw [List.flatMap_cons, sigil]
      exact ⟨'@', _, rfl, rfl, by decide⟩
  obtain ⟨letters, sigil⟩ := global_sigil g
  refine ⟨?_, misses_choice (misses_global spelled next noDigit noSign (Nat.le_refl _)) (by simp)⟩
  rw [sigil]
  exact solid_cons rfl _

/-- Behind the gap in front of it, a printed program with a function begins with something
solid, and something is missed further on in it. -/
theorem misses_printed {program : Program} (headed : program.Headed)
    (some' : program.functions ≠ []) :
    Solid program.text.toList ∧ MissesBelow program.text.toList.length
      (sequence [many (choice [global, function]), ending]) program.text.toList := by
  obtain ⟨first, others, listed⟩ := List.exists_cons_of_ne_nil some'
  obtain ⟨tail, functions⟩ : ∃ tail,
      ("\n\n".intercalate (program.functions.map Func.text)).toList ++ ['\n'] =
        first.text.toList ++ tail := by
    rw [listed, List.map_cons, ReadBack.intercalate_toList, List.append_assoc]
    exact ⟨_, rfl⟩
  have each : Solid program.text.toList ∧ MissesBelow program.text.toList.length
      (choice [global, function]) program.text.toList := by
    cases globals : program.globals with
    | nil =>
      have text : program.text.toList = first.text.toList ++ tail := by
        rw [← functions, Program.text, globals]
        simp
      rw [text]
      exact misses_function_first (headed.functions first (by simp [listed])) tail
    | cons g more =>
      have text : program.text.toList = g.text.toList ++ '\n' ::
          ((more.flatMap fun global => global.text.toList ++ ['\n']) ++
            '\n' :: (first.text.toList ++ tail)) := by
        rw [← functions, Program.text, globals]
        simp [String.toList_join, List.flatMap_map]
      rw [text]
      exact misses_global_first (headed.globals g (by simp [globals])) more first tail
  obtain ⟨solid, misses⟩ := each
  exact ⟨solid, misses_first (misses_optional (misses_many1 misses (by simp))) (by simp)⟩

end Expectation

end KernelGuard
