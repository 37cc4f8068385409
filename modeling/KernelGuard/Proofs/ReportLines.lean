import KernelGuard.Command.Report
import KernelGuard.Proofs.FactOrigins
import KernelGuard.Proofs.LoweredReadBack
import KernelGuard.Proofs.PrintedHead
import KernelGuard.Proofs.RemovalSession

/-! What a report quotes of a program. Names, labels and operands are spelled on one line, and
a floating constant is written on one even if no text stands for it. Passes keep it so, and a
removal leaves the head of its function alone. So every line of a report is one line. -/
namespace KernelGuard

open Lexeme

/-! ## Texts on one line -/

/-- A text without a line feed. -/
def OneLine (text : String) : Prop := ∀ c ∈ text.toList, c ≠ '\n'

instance (text : String) : Decidable (OneLine text) :=
  List.decidableBAll (· ≠ '\n') text.toList

theorem oneLine_append {first second : String} :
    OneLine (first ++ second) ↔ OneLine first ∧ OneLine second := by
  simp only [OneLine, String.toList_append, List.forall_mem_append]

theorem oneLine_spelled {name : String} (spelled : Spelled name) : OneLine name := by
  intro c member
  rintro rfl
  exact absurd (spelled.2 _ member) (by decide)

theorem Ty.oneLine_text (type : Ty) : OneLine type.text := by
  cases type <;> decide

/-- A numeral is written on one line. -/
theorem Decimal.Written.oneLine {written : Decimal.Written} (sound : written.Sound) {text : String}
    (spelled : text.toList = written.chars) : OneLine text := by
  have digits : ∀ list : List Char, (∀ c ∈ list, c.isDigit = true) → ∀ c ∈ list, c ≠ '\n' := by
    intro list all c member
    rintro rfl
    exact absurd (all _ member) (by decide)
  have signed : ∀ n : Int, ∀ c ∈ (toString n).toList, c ≠ '\n' := by
    intro n
    rw [Decimal.toList_int]
    refine List.forall_mem_append.mpr ⟨?_, digits _ (Decimal.toDigits_digits _)⟩
    split <;> simp
  obtain ⟨negative, whole, fraction, power⟩ := written
  rw [OneLine, spelled]
  simp only [chars, List.forall_mem_append]
  refine ⟨?_, digits _ sound.whole, ?_, ?_⟩
  · unfold sign
    split <;> simp
  · cases fraction with
    | none => simp [point]
    | some places =>
      exact List.forall_mem_cons.mpr ⟨by decide, digits _ sound.places⟩
  · cases power with
    | none => simp [exponent]
    | some power => exact List.forall_mem_cons.mpr ⟨by decide, signed power⟩

private theorem oneLine_binary {format : BinaryFormat} (x : Binary format) : OneLine x.text := by
  cases x with
  | finite x =>
    obtain ⟨written, sound, spelled, -⟩ := Decimal.render_spelled Binary.layout x.shortest
    exact written.oneLine sound spelled
  | infinite negative =>
    cases negative with
    | false => exact (by decide : OneLine "inf")
    | true => exact (by decide : OneLine "-inf")
  | nan => exact (by decide : OneLine "NaN")

private theorem oneLine_int (n : Int) : OneLine (toString n) := by
  obtain ⟨written, sound, spelled, -⟩ := Decimal.toString_spelled n
  exact written.oneLine sound spelled

theorem Temp.oneLine_text {temp : Temp} (spelled : Spelled temp.name.spelling) :
    OneLine temp.text := by
  refine oneLine_append.mpr ⟨?_, oneLine_spelled spelled⟩
  split <;> decide

/-- An operand of a program that was read is written on one line, whatever its value. -/
theorem Draft.stands_oneLine {value : Value} (stands : Draft.Stands value) : OneLine value.text := by
  cases value with
  | bool value => cases value <;> decide
  | int n | long n => exact oneLine_int _
  | float x | double x => exact oneLine_binary x
  | temp t =>
    have readable : (Value.temp t).Readable := Draft.stands_readable stands rfl
    exact Temp.oneLine_text readable.spelled

/-! ## What is quoted of a program -/

/-- What a report quotes of an instruction is on one line. -/
def Instr.Quotable : Instr → Prop
  | .branch _ condition _ _ => OneLine condition.text
  | .compare target kind predicate type lhs rhs =>
    OneLine (Instr.compare target kind predicate type lhs rhs).text ∧ OneLine rhs.text
  | _ => True

structure Func.Quotable (func : Func) : Prop where
  head : func.head.Spelled
  code : ∀ block ∈ func.blocks, ∀ instr ∈ block.code, instr.Quotable

structure Program.Quotable (program : Program) : Prop where
  globals : ∀ global ∈ program.globals, Spelled global.name
  functions : ∀ func ∈ program.functions, func.Quotable

theorem Program.Quotable.headed {program : Program} (quotable : program.Quotable) :
    program.Headed :=
  ⟨quotable.globals, fun func member => (quotable.functions func member).head⟩

theorem Draft.quotable_of_plain {instr : KernelGuard.Instr} (plain : Draft.Plain instr) :
    instr.Quotable := by
  cases instr with
  | branch type condition onTrue onFalse =>
    exact Draft.stands_oneLine (plain.operands condition (by simp [KernelGuard.Instr.operands]))
  | compare target kind predicate type lhs rhs =>
    have left := Draft.stands_oneLine (plain.operands lhs (by simp [KernelGuard.Instr.operands]))
    have right := Draft.stands_oneLine (plain.operands rhs (by simp [KernelGuard.Instr.operands]))
    have written : OneLine target.text := Temp.oneLine_text (plain.target target rfl).spelled
    have kinds : OneLine kind.text := by cases kind <;> decide
    have predicates : OneLine predicate.text := by cases predicate <;> decide
    refine ⟨?_, right⟩
    have text : (KernelGuard.Instr.compare target kind predicate type lhs rhs).text =
        target.text ++ " = " ++ kind.text ++ " " ++ predicate.text ++ " " ++
          (type.text ++ " " ++ lhs.text ++ ", " ++ rhs.text) := by
      simp [KernelGuard.Instr.text, commaSeparated, typed]
    have comma : OneLine ", " := by decide
    have blank : OneLine " " := by decide
    have equals : OneLine " = " := by decide
    simp only [text, oneLine_append]
    simp only [written, kinds, predicates, left, right, type.oneLine_text, comma, blank, equals,
      and_self]
  | _ => trivial

theorem Draft.name_of_meant {written : Draft.Global} {global : KernelGuard.Global}
    (meant : written.meaning = .ok global) : global.name = written.name := by
  unfold Draft.Global.meaning at meant
  split at meant
  · cases meant
    rfl
  · obtain ⟨value, -, meant⟩ := bind_gives meant
    cases meant
    rfl

/-- What is quoted of a function that was linked is what was written. -/
theorem Func.quotable_ofModule {function : Module.Function} {func : Func}
    (linked : ofModule function = .ok func) (name : Spelled function.name)
    (params : ∀ param ∈ function.params, param.IsTarget) (nonempty : function.blocks ≠ [])
    (blocks : ∀ block ∈ function.blocks, Spelled block.label ∧
      (∀ instr ∈ block.instrs, instr.Quotable) ∧ block.terminator.Quotable) : func.Quotable := by
  have ended := (linked_ofModule linked).ended
  rw [← written_ofModule linked] at name params nonempty blocks
  have each : ∀ block ∈ func.blocks, Spelled block.label ∧
      (∀ instr ∈ block.instrs, instr.Quotable) ∧ block.written.terminator.Quotable :=
    List.forall_mem_map.mp blocks
  refine ⟨⟨name, params, List.forall_mem_map.mpr fun block member => (each block member).1, ?_⟩, ?_⟩
  · simpa [written, head] using nonempty
  · intro block member instr listed
    obtain ⟨-, plain, last⟩ := each block member
    rcases List.mem_append.mp listed with body | ends
    · rcases List.mem_append.mp body with phi | inside
      · obtain ⟨first, -, rfl⟩ := List.mem_map.mp phi
        trivial
      · exact plain instr inside
    · rw [Option.mem_toList] at ends
      rwa [Block.written, ends] at last

/-- Everything can be quoted of a program that was read. -/
theorem Program.quotable_ofText {text : String} {program : Program}
    (parsed : ofText text = .ok program) : program.Quotable := by
  obtain ⟨module, read, linked⟩ := bind_gives parsed
  obtain ⟨functions, given, linked⟩ := bind_gives linked
  cases linked
  obtain ⟨draft, drafted, meant⟩ := Module.draft_ofText read
  have spelled := Draft.ofText_spelled drafted
  obtain ⟨globals, members⟩ := Draft.meaning_members meant
  constructor
  · intro global member
    obtain ⟨written, inside, meant⟩ := globals global member
    rw [Draft.name_of_meant meant]
    exact (spelled _ inside : written.Spelled).name
  · intro func member
    obtain ⟨function, among, linked⟩ := (mapM_gives given).2 func member
    obtain ⟨written, inside, meant⟩ := members function among
    have whole : written.Spelled := spelled _ inside
    obtain ⟨blocks, blocksRead, meant⟩ := bind_gives meant
    cases meant
    obtain ⟨length, each⟩ := mapM_gives blocksRead
    refine Func.quotable_ofModule linked whole.name ?_ ?_ ?_
    · intro param member
      obtain ⟨written, inside, rfl⟩ := List.mem_map.mp member
      exact ⟨whole.params written inside, rfl⟩
    · refine List.ne_nil_of_length_pos ?_
      rw [length]
      exact List.length_pos_iff.mpr whole.nonempty
    · intro block member
      obtain ⟨source, inside, given⟩ := each block member
      obtain ⟨label, -, instrs, ⟨last, -⟩, -⟩ :=
        Draft.block_plain given (whole.blocks source inside)
      exact ⟨label, fun instr listed => Draft.quotable_of_plain (instrs instr listed).1.1,
        Draft.quotable_of_plain last⟩

/-! ## Passes and removals -/

namespace FusedMultiplyAdd

theorem head_lower (func : Func) : (lower func).value.1.head = func.head := by
  have labels : ∀ func : Func, func.blocks.map (·.label) = func.ways.map Prod.fst := by
    intro func
    rw [Func.ways, List.map_map]
    rfl
  have same : (lower func).value.1.blocks.map (·.label) = func.blocks.map (·.label) := by
    rw [labels, labels, ways_lower]
  exact congrArg (Func.Head.mk func.name func.params) same

/-- A call is not quoted, nor is what it is lowered to. -/
private theorem lowerInstrs_quotable {instrs : List Instr} (names : NameSupply)
    (quotable : ∀ instr ∈ instrs, instr.Quotable) :
    ∀ instr ∈ (lowerInstrs names instrs).value.1, instr.Quotable := by
  induction instrs generalizing names with
  | nil => simp [lowerInstrs]
  | cons instr rest ih =>
    obtain ⟨here, later⟩ := List.forall_mem_cons.mp quotable
    cases found : call? instr with
    | none =>
      rw [lowerInstrs_kept found]
      exact List.forall_mem_cons.mpr ⟨here, ih names later⟩
    | some call =>
      rw [lowerInstrs_call found]
      refine List.forall_mem_append.mpr ⟨?_, ih _ later⟩
      simp [lowered, Instr.Quotable]

theorem lower_quotable {func : Func} (quotable : func.Quotable) :
    (lower func).value.1.Quotable := by
  refine ⟨head_lower func ▸ quotable.head, fun result inside instr listed => ?_⟩
  obtain ⟨block, original, names, -, rfl, -⟩ :=
    origin_of_lowered (lowerBlocks_each func.blocks func.names) inside
  have before := quotable.code block original
  rcases List.mem_append.mp listed with body | ends
  · rcases List.mem_append.mp body with phi | plain
    · exact before instr (List.mem_append_left _ (List.mem_append_left _ phi))
    · refine lowerInstrs_quotable names (fun instr member => before instr ?_) instr plain
      exact List.mem_append_left _ (List.mem_append_right _ member)
  · exact before instr (List.mem_append_right _ ends)

end FusedMultiplyAdd

/-- A registered pass lowers every function. -/
theorem Registry.run_standard {name : String} {program : Program}
    {step : Logged (Program × Bool)} (ran : Registry.run .standard name program = .ok step) :
    step.value.1 = { program with functions := program.functions.map fun func =>
      (FusedMultiplyAdd.lower func).value.1 } := by
  by_cases known : FusedMultiplyAdd.pass.name = name
  · have found : Registry.find .standard name = .ok FusedMultiplyAdd.pass := by
      simp [Registry.find, Registry.standard, Registry.register, known]
    obtain ⟨done, ran', value⟩ :=
      Registry.run_of_visits found (FusedMultiplyAdd.visits_lowered program.functions)
    obtain rfl : step = done := Except.ok.inj (ran.symm.trans ran')
    rw [value, List.map_map]
    rfl
  · have unknown : Registry.find .standard name = .error (.unknownPass name) := by
      simp [Registry.find, Registry.standard, Registry.register, known]
    rw [(Registry.run_of_unknown unknown).1] at ran
    cases ran

theorem Report.quotable_of_passes {program left : Program} {passes : List String}
    (quotable : program.Quotable)
    (ran : (Report.runPasses .standard program passes).value = .ok left) : left.Quotable := by
  induction passes generalizing program with
  | nil =>
    cases ran
    exact quotable
  | cons name rest ih =>
    unfold Report.runPasses at ran
    split at ran
    · cases ran
    · rename_i step stepped
      have kept : step.value.1.Quotable := by
        rw [Registry.run_standard stepped]
        exact ⟨quotable.globals, List.forall_mem_map.mpr fun func member =>
          FusedMultiplyAdd.lower_quotable (quotable.functions func member)⟩
      exact ih kept ran

namespace Func

theorem head_folded (func : Func) (name : Name) : (func.folded name).head = func.head := by
  have labels : ∀ blocks : List Block,
      (erased name blocks).map (·.label) = blocks.map (·.label) := by
    intro blocks
    induction blocks with
    | nil => rfl
    | cons block rest ih =>
      rw [erased_cons]
      split
      · rfl
      · rw [List.map_cons, List.map_cons, ih]
  by_cases defined : func.defines name = true
  · rw [folded_of_defined defined, head, head, List.map_map, ← labels func.blocks]
    rfl
  · rw [folded_of_undefined (eq_false_of_ne_true defined)]

/-- A removal leaves the head of its function alone. -/
theorem head_removal (session : Session) (remover : Remover) :
    (session.removal remover).func.head = session.func.head := by
  rcases session.idle_or_due remover with idle | ⟨fact, usable, unspent⟩
  · rw [Session.removal_of_idle idle]
  · rw [Session.removal_of_due usable unspent]
    exact head_folded _ _

end Func

/-! ## The lines on a function -/

section
variable {func : Func} {region : Region} {postDominates : Nat → Nat → Bool}
  {symbols : IndexSymbols}

theorem Func.Quotable.oneLine_labelAt (quotable : func.Quotable) (place : Nat) :
    OneLine (func.labelAt place) := by
  unfold labelAt
  cases here : func.blocks[place]? with
  | none => decide
  | some block =>
    exact oneLine_spelled (quotable.head.labels _ (List.mem_map_of_mem (List.mem_of_getElem? here)))

/-- The condition of a branch is quoted. -/
private theorem branch_quoted (quotable : func.Quotable) {place : Nat} {candidate : Candidate}
    (found : EarlyExit.branchAt? func place = some candidate) :
    OneLine candidate.condition.text := by
  unfold EarlyExit.branchAt? at found
  split at found
  · rename_i block here
    split at found
    · rename_i type condition onTrue onFalse ends
      cases found
      refine quotable.code block (List.mem_of_getElem? here) (.branch type condition onTrue onFalse) ?_
      exact List.mem_append_right _ (by simp [ends])
    · cases found
  · cases found

/-- What is located of a guard is quoted on one line. -/
private theorem exit_quoted (quotable : func.Quotable) {exit : EarlyExit}
    (located : (EarlyExit.locate func region postDominates).value = some exit) :
    OneLine exit.block ∧ OneLine exit.exit ∧ OneLine exit.condition.text := by
  unfold EarlyExit.locate at located
  split at located
  · cases located
  · rename_i candidate first
    obtain ⟨place, -, branch⟩ := List.exists_of_findSome?_eq_some first
    rw [Logged.value_bind] at located
    split at located
    · cases located
    · cases located
    · cases located
      exact ⟨quotable.oneLine_labelAt _, quotable.oneLine_labelAt _, branch_quoted quotable branch⟩

private theorem located_of_analysis {exit : EarlyExit}
    (found : (Analysis.ofRegion func region postDominates symbols).value.earlyExit = some exit) :
    (EarlyExit.locate func region postDominates).value = some exit := by
  cases located : (EarlyExit.locate func region postDominates).value with
  | none =>
    rw [Analysis.ofRegion_unlocated located] at found
    cases found
  | some other =>
    rw [Analysis.ofRegion_located located] at found
    exact found

theorem Report.oneLine_headline (quotable : func.Quotable) :
    OneLine (headline func (Analysis.ofRegion func region postDominates symbols).value) := by
  have name : OneLine func.name := oneLine_spelled quotable.head.name
  have status : ∀ status : GuardStatus, OneLine status.text := by
    intro status
    cases status <;> decide
  unfold headline
  split
  · rename_i exit found
    obtain ⟨block, exit, condition⟩ := exit_quoted quotable (located_of_analysis found)
    simp only [oneLine_append, name, block, exit, condition, status, and_true]
    decide
  · simp only [oneLine_append, name, status, and_true]
    decide

theorem Report.oneLine_factLine (quotable : func.Quotable) {fact : BoundFact}
    (listed : fact ∈ (Analysis.ofRegion func region postDominates symbols).value.boundFacts) :
    OneLine (factLine fact) := by
  obtain ⟨dimension, usable⟩ := Analysis.mem_boundFacts_iff.mp listed
  obtain ⟨-, -, definition, defined, bounds, quoted⟩ :=
    Condition.kept_fact_origin (Analysis.kept_of_usable usable)
  obtain ⟨block, member, first⟩ := List.exists_of_findSome?_eq_some defined
  have compare : definition.Quotable :=
    quotable.code block member definition (List.mem_append_left _ (List.mem_of_find?_eq_some first))
  have bound : OneLine fact.bound.text ∧ OneLine fact.text := by
    rw [quoted]
    generalize fact.bound = bound at bounds
    cases bounds with
    | less order parameter sum loads => exact ⟨compare.2, compare.1⟩
  have dimensions : OneLine fact.dimension.text := by cases fact.dimension <;> decide
  simp only [factLine, oneLine_append, bound, dimensions, and_true]
  decide

/-- Nothing of the function is quoted on a removal, and its head stays. -/
private theorem removeIf_quoted {wanted : Bool} (remover : Remover) {analysis : Analysis}
    {removed : Removal × List String × List Notice}
    (made : Report.removeIf wanted remover.dimension analysis func = removed) :
    removed.1.func.head = func.head ∧ ∀ line ∈ removed.2.1, OneLine line := by
  subst made
  cases wanted with
  | false => exact ⟨rfl, by simp [Report.removeIf]⟩
  | true =>
    constructor
    · cases remover with
      | x => exact Func.head_removal ⟨analysis, func⟩ .x
      | y => exact Func.head_removal ⟨analysis, func⟩ .y
    · intro line member
      rw [Report.removeIf, if_pos rfl] at member
      dsimp only at member
      split at member
      · obtain rfl := List.mem_singleton.mp member
        cases remover <;> decide
      · cases member

/-- A report on a function analyses a region of it and removes what is asked for. -/
private theorem ofFunc_parts {settings : Settings} {found : FunctionReport}
    (reported : Report.ofFunc settings func = .ok found) : ∃ region postDominates first second,
      let analysis := (Analysis.ofRegion func region postDominates settings.symbols).value
      Report.removeIf settings.removeX .x analysis func = first ∧
        Report.removeIf settings.removeY .y first.1.analysis first.1.func = second ∧
        found.func = second.1.func ∧
        found.lines = Report.headline func analysis :: analysis.boundFacts.map Report.factLine ++
          first.2.1 ++ second.2.1 := by
  unfold Report.ofFunc at reported
  dsimp only at reported
  split at reported
  · cases reported
    exact ⟨_, _, _, _, rfl, rfl, rfl, rfl⟩
  · obtain ⟨region, -, reported⟩ := bind_gives reported
    cases reported
    exact ⟨_, _, _, _, rfl, rfl, rfl, rfl⟩

/-- Every line of the report on a function is one line, and the head of the function stays. -/
theorem Report.ofFunc_quoted {settings : Settings} {found : FunctionReport}
    (quotable : func.Quotable) (reported : ofFunc settings func = .ok found) :
    found.func.head = func.head ∧ ∀ line ∈ found.lines, OneLine line := by
  obtain ⟨region, postDominates, first, second, madeFirst, madeSecond, left, lines⟩ :=
    ofFunc_parts reported
  obtain ⟨firstHead, firstLines⟩ := removeIf_quoted .x madeFirst
  obtain ⟨secondHead, secondLines⟩ := removeIf_quoted .y madeSecond
  refine ⟨left ▸ secondHead.trans firstHead, ?_⟩
  rw [lines]
  refine List.forall_mem_append.mpr ⟨List.forall_mem_append.mpr ⟨?_, firstLines⟩, secondLines⟩
  refine List.forall_mem_cons.mpr ⟨oneLine_headline quotable, ?_⟩
  exact List.forall_mem_map.mpr fun fact listed => oneLine_factLine quotable listed

end

end KernelGuard
