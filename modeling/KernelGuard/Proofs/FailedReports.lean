import KernelGuard.Proofs.ReportComments

/-! What a report fails on. A program that cannot be read, a pass that is not known and a function
that is not there are noticed before anything is written. A label that a selected function lacks
is noticed when the reports on the functions in front of it are out. The program is not written
in any of these cases. -/
namespace KernelGuard.Report

/-- The lines about some functions, those that are not selected left out. -/
def linesAbout (settings : Settings) (functions : List Func) : List String :=
  (functions.filter (settings.selects ·.name)).flatMap fun func =>
    (ofFunc settings func).toOption.elim [] (·.lines)

/-- What a run fails on between reading its input and writing the program, and what is written
by then: nothing, except where a selected function lacks a label of the region. Then the reports
on the selected functions in front of it are out. -/
inductive Fails (options : Options) (source : String) : Fault → String → Prop where
  | source {fault : Fault} (unread : Program.ofText source = .error fault) :
      Fails options source fault ""
  | pass {parsed : Program} {fault : Fault} (read : Program.ofText source = .ok parsed)
      (unknown : (runPasses .standard parsed options.passes).value = .error fault) :
      Fails options source fault ""
  | function {parsed passed : Program} {name : String} {fault : Fault}
      (read : Program.ofText source = .ok parsed)
      (ran : (runPasses .standard parsed options.passes).value = .ok passed)
      (reports : options.analyze = true) (asked : options.function = some name)
      (missing : passed.function name = .error fault) : Fails options source fault ""
  | region {parsed passed : Program} {before later : List Func} {func : Func} {fault : Fault}
      (read : Program.ofText source = .ok parsed)
      (ran : (runPasses .standard parsed options.passes).value = .ok passed)
      (reports : options.analyze = true)
      (order : passed.functions = before ++ func :: later)
      (selected : (Settings.ofOptions options).selects func.name = true)
      (unknown : Region.ofLabels func (Settings.ofOptions options).region = .error fault)
      (known : ∀ earlier ∈ before, (Settings.ofOptions options).selects earlier.name = true →
        ∃ region, Region.ofLabels earlier (Settings.ofOptions options).region = .ok region) :
      Fails options source fault (asComments (linesAbout (.ofOptions options) before))

variable {options : Options} {settings : Settings} {source : String} {fault : Fault}

/-- The report on a function fails exactly where a label of the region is unknown. -/
private theorem ofFunc_region (settings : Settings) (func : Func) :
    (∃ region found, Region.ofLabels func settings.region = .ok region ∧
      ofFunc settings func = .ok found) ∨
    ∃ fault, Region.ofLabels func settings.region = .error fault ∧
      ofFunc settings func = .error fault := by
  unfold ofFunc
  by_cases none' : settings.region = []
  · simp only [none', List.isEmpty_nil, if_true]
    exact .inl ⟨[], _, rfl, rfl⟩
  · rw [if_neg (by simpa using none')]
    cases labelled : Region.ofLabels func settings.region with
    | ok region => exact .inl ⟨region, _, rfl, rfl⟩
    | error fault => exact .inr ⟨fault, rfl, rfl⟩

private theorem linesAbout_cons (func : Func) (rest : List Func) :
    linesAbout settings (func :: rest) =
      (if settings.selects func.name then (ofFunc settings func).toOption.elim [] (·.lines)
        else []) ++ linesAbout settings rest := by
  unfold linesAbout
  by_cases selected : settings.selects func.name = true <;> simp [selected]

/-- A report on some functions fails on the first selected one that lacks a label, and is that on
the functions in front of it. -/
private theorem ofFuncs_fails {functions : List Func}
    (failed : (ofFuncs settings functions).2.fault = some fault) : ∃ before func later,
      functions = before ++ func :: later ∧ settings.selects func.name = true ∧
      Region.ofLabels func settings.region = .error fault ∧
      (∀ earlier ∈ before, settings.selects earlier.name = true →
        ∃ region, Region.ofLabels earlier settings.region = .ok region) ∧
      (ofFuncs settings functions).2.output = asComments (linesAbout settings before) := by
  induction functions with
  | nil => cases failed
  | cons func rest ih =>
    unfold ofFuncs at failed ⊢
    by_cases selected : settings.selects func.name = true
    · simp only [if_pos selected] at failed ⊢
      rcases ofFunc_region settings func with
        ⟨region, found, labelled, reported⟩ | ⟨cause, unknown, reported⟩
      · simp only [reported] at failed ⊢
        obtain ⟨before, lacking, later, rfl, selected', unknown, known, output⟩ := ih failed
        refine ⟨func :: before, lacking, later, rfl, selected', unknown,
          List.forall_mem_cons.mpr ⟨fun _ => ⟨region, labelled⟩, known⟩, ?_⟩
        rw [output_after, output, linesAbout_cons, if_pos selected, reported, asComments_append]
        rfl
      · simp only [reported] at failed ⊢
        cases failed
        exact ⟨[], func, rest, rfl, selected, unknown, by simp, rfl⟩
    · simp only [if_neg selected] at failed ⊢
      obtain ⟨before, lacking, later, rfl, selected', unknown, known, output⟩ := ih failed
      refine ⟨func :: before, lacking, later, rfl, selected', unknown,
        List.forall_mem_cons.mpr ⟨fun chosen => absurd chosen selected, known⟩, ?_⟩
      rw [linesAbout_cons, if_neg selected]
      exact output

private theorem ofProgram_fails {parsed passed : Program}
    (read : Program.ofText source = .ok parsed)
    (ran : (runPasses .standard parsed options.passes).value = .ok passed)
    (reports : options.analyze = true)
    (failed : (ofProgram (.ofOptions options) passed).2.fault = some fault) :
    Fails options source fault (ofProgram (.ofOptions options) passed).2.output := by
  unfold ofProgram at failed ⊢
  dsimp only at failed ⊢
  split at failed
  · rename_i cause missing
    cases failed
    obtain ⟨name, asked, found⟩ := Option.bind_eq_some_iff.mp missing
    cases looked : passed.function name with
    | ok func => simp [looked] at found
    | error cause' =>
      simp only [looked, Option.some.injEq] at found
      subst found
      exact .function read ran reports asked looked
  · obtain ⟨before, func, later, order, selected, unknown, known, output⟩ := ofFuncs_fails failed
    rw [output]
    exact .region read ran reports order selected unknown known

private theorem withProgram_of_fault {report : Report} (failed : report.fault = some fault)
    (program : Program) : report.withProgram program = report := by
  simp [withProgram, failed]

/-- A run that fails has written what its failure tells, and no program. -/
theorem fails_of_fault (failed : (run options source).fault = some fault) :
    Fails options source fault (run options source).output := by
  unfold run at failed ⊢
  cases read : Program.ofText source with
  | error cause =>
    simp only [read] at failed ⊢
    cases failed
    exact .source read
  | ok parsed =>
    simp only [read] at failed ⊢
    rw [output_after, String.empty_append]
    cases ran : (runPasses .standard parsed options.passes).value with
    | error cause =>
      simp only [ran] at failed ⊢
      cases failed
      exact .pass read ran
    | ok passed =>
      simp only [ran] at failed ⊢
      cases reports : options.analyze with
      | false =>
        simp only [reports, Bool.not_false, Bool.or_true, if_true] at failed
        cases failed
      | true =>
        simp only [reports, if_true, Bool.not_true, Bool.or_false] at failed ⊢
        have failed' : (ofProgram (.ofOptions options) passed).2.fault = some fault := by
          split at failed
          · exact (withProgram_fault _ _).symm.trans failed
          · exact failed
        rw [withProgram_of_fault failed', ite_self]
        exact ofProgram_fails read ran reports failed'

end KernelGuard.Report
