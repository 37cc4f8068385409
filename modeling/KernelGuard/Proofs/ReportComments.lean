import KernelGuard.Proofs.CommentedTexts
import KernelGuard.Proofs.ReportLines
import KernelGuard.Proofs.WrittenOutput

/-! The report in front of a printed program. Its lines are comments, each of which ends where
the line does, so the parser skips them like any gap. What is written of a run is read as the
program at the end of it would be read alone, or refused with the same fault further down. -/
namespace KernelGuard

open Lexeme

/-! ## Lines as comments -/

namespace Report

variable {lines : List String}

theorem asComments_append (first second : List String) :
    asComments (first ++ second) = asComments first ++ asComments second := by
  rw [asComments, List.map_append, String.join_append]
  rfl

theorem asComments_cons (line : String) (lines : List String) :
    (asComments (line :: lines)).toList =
      ';' :: (' ' :: line.toList) ++ '\n' :: (asComments lines).toList := by
  simp [asComments, String.toList_join]

/-- Lines in front of a text are a gap there. -/
theorem asComments_gap (each : ∀ line ∈ lines, OneLine line) (after : List Char) :
    Gap after (asComments lines).toList := by
  induction lines with
  | nil => exact .nothing
  | cons line lines ih =>
    obtain ⟨here, later⟩ := List.forall_mem_cons.mp each
    rw [asComments_cons]
    exact .comment (List.forall_mem_cons.mpr ⟨by decide, here⟩) (ih later)

theorem asComments_whole (lines : List String) : WholeLines (asComments lines).toList := by
  induction lines with
  | nil => simp [asComments, WholeLines]
  | cons line lines ih =>
    intro c last
    rw [asComments_cons, List.getLast?_append, List.getLast?_cons, Option.some_or] at last
    cases behind : (asComments lines).toList.getLast? with
    | none => simpa [behind] using last.symm
    | some d =>
      rw [behind] at last
      exact ih c (behind.trans last)

theorem asComments_count (each : ∀ line ∈ lines, OneLine line) :
    (asComments lines).toList.count '\n' = lines.length := by
  induction lines with
  | nil => rfl
  | cons line lines ih =>
    obtain ⟨here, later⟩ := List.forall_mem_cons.mp each
    have none : line.toList.count '\n' = 0 :=
      List.count_eq_zero.mpr fun member => here _ member rfl
    rw [asComments_cons]
    simp [none, ih later]

end Report

theorem Fault.movedDown_zero (fault : Fault) : fault.movedDown 0 = fault := by
  cases fault <;> rfl

/-- Lines in front of a printed program move its faults down and do nothing else. -/
theorem Program.ofText_behind_comments {program : Program} {lines : List String}
    (headed : program.Headed) (each : ∀ line ∈ lines, OneLine line)
    (some' : lines ≠ [] → program.functions ≠ []) :
    ofText (Report.asComments lines ++ program.text) =
      (ofText program.text).mapError (Fault.movedDown lines.length) := by
  by_cases silent : lines = []
  · subst silent
    have front : Report.asComments [] = "" := rfl
    rw [front, String.empty_append]
    cases ofText program.text with
    | ok again => rfl
    | error fault => exact congrArg Except.error fault.movedDown_zero.symm
  · obtain ⟨solid, misses⟩ := Expectation.misses_printed headed (some' silent)
    rw [ofText_wholeLines (Report.asComments_whole lines) solid (Report.asComments_gap each _)
      misses, Report.asComments_count each]

/-! ## The run -/

namespace Report

theorem withProgram_fault (report : Report) (program : Program) :
    (report.withProgram program).fault = report.fault := by
  unfold withProgram
  split <;> rfl

theorem output_after (report : Report) (notices : List Notice) (text : String) :
    (report.after notices text).output = text ++ report.output :=
  String.join_cons

theorem output_withProgram {report : Report} (faultless : report.fault = none)
    (program : Program) : (report.withProgram program).output = report.output ++ program.text := by
  simp [withProgram, faultless, output, String.join_append]

/-- The report on some functions is made of lines, and the heads of the functions stay. -/
theorem ofFuncs_quoted {settings : Settings} {functions : List Func}
    (quotable : ∀ func ∈ functions, func.Quotable)
    (faultless : (ofFuncs settings functions).2.fault = none) : ∃ lines,
      (ofFuncs settings functions).2.output = asComments lines ∧
      (∀ line ∈ lines, OneLine line) ∧ (lines ≠ [] → functions ≠ []) ∧
      (ofFuncs settings functions).1.map Func.head = functions.map Func.head := by
  induction functions with
  | nil => exact ⟨[], rfl, by simp, fun some' => absurd rfl some', rfl⟩
  | cons func rest ih =>
    obtain ⟨here, later⟩ := List.forall_mem_cons.mp quotable
    unfold ofFuncs at faultless ⊢
    by_cases selected : settings.selects func.name = true
    · simp only [if_pos selected] at faultless ⊢
      cases reported : ofFunc settings func with
      | error fault =>
        simp only [reported] at faultless
        cases faultless
      | ok found =>
        simp only [reported] at faultless ⊢
        obtain ⟨head, own⟩ := ofFunc_quoted here reported
        obtain ⟨lines, output, each, -, heads⟩ := ih later faultless
        refine ⟨found.lines ++ lines, ?_, List.forall_mem_append.mpr ⟨own, each⟩, by simp, ?_⟩
        · rw [asComments_append, ← output]
          exact output_after _ _ _
        · rw [List.map_cons, List.map_cons, head, heads]
    · simp only [if_neg selected] at faultless ⊢
      obtain ⟨lines, output, each, -, heads⟩ := ih later faultless
      refine ⟨lines, output, each, by simp, ?_⟩
      rw [List.map_cons, List.map_cons, heads]

/-- So are the report on a program and the program that is left. -/
theorem ofProgram_quoted {settings : Settings} {program : Program} (quotable : program.Quotable)
    (faultless : (ofProgram settings program).2.fault = none) : ∃ lines,
      (ofProgram settings program).2.output = asComments lines ∧
      (∀ line ∈ lines, OneLine line) ∧
      (lines ≠ [] → (ofProgram settings program).1.functions ≠ []) ∧
      (ofProgram settings program).1.Headed := by
  unfold ofProgram at faultless ⊢
  dsimp only at faultless ⊢
  split at faultless
  · cases faultless
  · obtain ⟨lines, output, each, filled, heads⟩ := ofFuncs_quoted quotable.functions faultless
    refine ⟨lines, output, each, fun some' none => filled some' ?_, quotable.globals, ?_⟩
    · rw [← List.map_eq_nil_iff (f := Func.head), ← heads]
      exact List.map_eq_nil_iff.mpr none
    · intro func member
      have listed : func.head ∈ program.functions.map Func.head :=
        heads ▸ List.mem_map_of_mem member
      obtain ⟨before, inside, same⟩ := List.mem_map.mp listed
      rw [← same]
      exact (quotable.functions before inside).head

/-- A run without fault has read its program, run its passes and reported on what they left. -/
theorem run_parts {options : Options} {source : String} (reports : options.analyze = true)
    (prints : options.printProgram = true) (faultless : (run options source).fault = none) :
    ∃ parsed passed, Program.ofText source = .ok parsed ∧
      (runPasses .standard parsed options.passes).value = .ok passed ∧
      (ofProgram (.ofOptions options) passed).2.fault = none ∧
      (run options source).output =
        (ofProgram (.ofOptions options) passed).2.output ++
          (ofProgram (.ofOptions options) passed).1.text := by
  unfold run at faultless ⊢
  cases parsed : Program.ofText source with
  | error fault =>
    simp only [parsed] at faultless
    cases faultless
  | ok program =>
    simp only [parsed] at faultless ⊢
    cases ran : (runPasses .standard program options.passes).value with
    | error fault =>
      simp only [ran] at faultless
      cases faultless
    | ok passed =>
      refine ⟨program, passed, rfl, ran, ?_⟩
      simp only [ran, reports, prints, Bool.true_or, if_true] at faultless ⊢
      generalize ofProgram (.ofOptions options) passed = left at faultless ⊢
      obtain ⟨left, report⟩ := left
      have none : report.fault = none := (withProgram_fault report left).symm.trans faultless
      refine ⟨none, ?_⟩
      rw [output_after, String.empty_append]
      exact output_withProgram none left

end Report

namespace Command

open World

/-- The report is transparent to the parser. Whatever options a run is given besides those for
a report and the program, its output is a comment for each line of the report and then the
program that is left, and is read as that program alone: as the same program, or with the same
fault as many lines further down. This is what the command writes, in the small world and on
every system that keeps the laws. -/
theorem report_is_transparent {options : Options} (reports : options.analyze = true)
    (prints : options.printProgram = true) :
    (∀ source, (Report.run options source).fault = none → ∃ parsed passed left report lines,
      Program.ofText source = .ok parsed ∧
      (Report.runPasses .standard parsed options.passes).value = .ok passed ∧
      Report.ofProgram (.ofOptions options) passed = (left, report) ∧
      report.output = Report.asComments lines ∧
      (Report.run options source).output = report.output ++ left.text ∧
      Program.ofText (Report.run options source).output =
        (Program.ofText left.text).mapError (Fault.movedDown lines.length)) ∧
    (∀ filter world final, options.listPasses = false →
      (runOptions World.host filter options).run world = (0, final) → ∃ input source,
        options.input = some input ∧ (world.opened options.output).read input = .ok source ∧
        (Report.run options source).fault = none ∧
        Written world final options.output (Report.run options source).output) ∧
    ∀ {σ : Type} {host : Host (StateM σ)} {quiet : σ → σ → Prop}, host.Laws quiet →
      ∀ filter world final, options.listPasses = false →
        (runOptions host filter options).run world = (0, final) → ∃ input source,
          options.input = some input ∧
          ((host.read input).run (host.opened options.output world)).1 = .ok source ∧
          (Report.run options source).fault = none ∧
          host.Wrote quiet options.output (host.opened options.output world) final
            (Report.run options source).output := by
  refine ⟨fun source faultless => ?_, fun filter world final working done =>
    run_writes_report working done, fun laws filter world final working done =>
    hosted_run_writes_report laws working done⟩
  obtain ⟨parsed, passed, read, ran, clean, whole⟩ := Report.run_parts reports prints faultless
  have quotable := Report.quotable_of_passes (Program.quotable_ofText read) ran
  obtain ⟨lines, output, each, filled, headed⟩ := Report.ofProgram_quoted quotable clean
  refine ⟨parsed, passed, _, _, lines, read, ran, rfl, output, whole, ?_⟩
  rw [whole, output]
  exact Program.ofText_behind_comments headed each filled

/-- A kernel with a guard and with a result that overflows. -/
def overflowText : String :=
  "define float @f(i32 %n) \x7ba: %l = load i32, ptr @x %i = add i32 %l, 0 " ++
  "%c = icmp ult i32 %i, %n br i1 %c, label %b, label %z b: br label %z z: ret float 1e99\x7d"

def overflowOptions : Options where
  output := none
  passes := ["transform-fmuladd-intrinsic"]
  listPasses := false
  analyze := true
  function := some "f"
  region := []
  removeX := true
  removeY := false
  indexSymbols := ⟨some "x", none, none⟩
  printProgram := true
  verbosity := 0
  input := some "k"

/-- The kernel is reported on and written, and is read behind its report as it would be read without
it. The same is written as on any system. -/
theorem overflow_reported : ∃ final lines left,
    (runOptions World.host (.ofVerbosity 0) overflowOptions).run
        (World.ofFiles [("k", overflowText)]) = (0, final) ∧
      final.out = Report.asComments lines ++ Program.text left ∧
      Program.ofText final.out =
        (Program.ofText left.text).mapError (Fault.movedDown lines.length) ∧
      ∃ source, World.host.Wrote Quiet none (World.ofFiles [("k", overflowText)]) final
        (Report.run overflowOptions source).output := by
  have ended : ((runOptions World.host (.ofVerbosity 0) overflowOptions).run
      (World.ofFiles [("k", overflowText)])).1 = 0 := by
    decide +kernel
  obtain ⟨final, done⟩ : ∃ final, (runOptions World.host (.ofVerbosity 0) overflowOptions).run
      (World.ofFiles [("k", overflowText)]) = (0, final) :=
    ⟨_, Prod.ext ended rfl⟩
  obtain ⟨single, whole⟩ := @report_is_transparent overflowOptions rfl rfl
  obtain ⟨input, source, -, -, faultless, written⟩ := whole.1 _ _ final rfl done
  obtain ⟨_, _, left, report, lines, -, -, -, comments, output, alike⟩ := single source faultless
  have same : final.out = (Report.run overflowOptions source).output :=
    written.trans String.empty_append
  obtain ⟨_, hosted, -, -, -, wrote⟩ := whole.2 host_laws _ _ final rfl done
  refine ⟨final, lines, left, done, ?_, ?_, hosted, wrote⟩
  · rw [same, output, comments]
  · rw [same, alike]

end Command

end KernelGuard
