import KernelGuard.Proofs.FailedReports

/-! What a run leaves behind that ends with an error. Nothing is restored: the output file is made
before the input is read, and the report on a function is out before the next one is looked at.
But nothing is written about what the run fails on or what would come after it, so what is left
is told by the failure alone. -/
namespace KernelGuard.Command

open World

/-! ## On any system -/

section Hosted

variable {σ : Type} {host : Host (StateM σ)} {quiet : σ → σ → Prop} {options : Options}
  {reader : List String → Except Refusal Options} {args : List String} {world final : σ}
  {code : Nat}

/-- Why a run ends with an error once it is ready to write, and what it has written by then. -/
inductive Stops (host : Host (StateM σ)) (world : σ) (options : Options) : String → Prop where
  | unnamed (none' : options.input = none) : Stops host world options ""
  | unreadable {input reason : String} (named : options.input = some input)
      (unread : ((host.read input).run world).1 = .error reason) : Stops host world options ""
  | faulty {input source text : String} {fault : Fault} (named : options.input = some input)
      (read : ((host.read input).run world).1 = .ok source)
      (fails : Report.Fails options source fault text) : Stops host world options text

/-- The ways in which a run ends with an error. It leaves nothing where its arguments are refused
or its output file cannot be made. Otherwise it has opened its output before it did anything
else, and has written what the reason it stops for tells, and nothing but that. Only a piece
of output that the system refuses ends a run earlier, with the pieces in front of it written. -/
inductive Ends (host : Host (StateM σ)) (quiet : σ → σ → Prop)
    (reader : List String → Except Refusal Options) (world : σ) (args : List String) :
    Nat → σ → Prop where
  | refused {final : σ} (usage : reader args = .error .usage) (untouched : quiet world final) :
      Ends host quiet reader world args 2 final
  | unlisted {asked after final : σ} {options : Options} {reason : String}
      (understood : reader args = .ok options) (listing : options.listPasses = true)
      (said : quiet world asked)
      (refused : (host.out (passList .standard)).run asked = (.error reason, after))
      (later : quiet after final) : Ends host quiet reader world args 101 final
  | unmade {final : σ} {options : Options} {reason : String}
      (understood : reader args = .ok options)
      (failed : ((host.opening options.output).run world).1 = .error reason)
      (untouched : quiet world final) : Ends host quiet reader world args 1 final
  | stopped {final : σ} {options : Options} {text : String} (understood : reader args = .ok options)
      (made : ((host.opening options.output).run world).1 = .ok ())
      (stops : Stops host (host.opened options.output world) options text)
      (wrote : host.Wrote quiet options.output (host.opened options.output world) final text) :
      Ends host quiet reader world args 1 final
  | unwritten {asked after final : σ} {options : Options} {input source reason : String}
      {taken rest : List Section} {piece : Section} (understood : reader args = .ok options)
      (made : ((host.opening options.output).run world).1 = .ok ())
      (named : options.input = some input)
      (read : ((host.read input).run (host.opened options.output world)).1 = .ok source)
      (order : (Report.run options source).sections = taken ++ piece :: rest)
      (wrote : host.Wrote quiet options.output (host.opened options.output world) asked
        (String.join (taken.map (·.text))))
      (refused : (host.write options.output piece.text).run asked = (.error reason, after))
      (later : quiet after final) : Ends host quiet reader world args 1 final

private theorem ran_ends (understood : reader args = .ok options)
    (ran : Ran host quiet options world code final) (failed : code ≠ 0) :
    Ends host quiet reader world args code final := by
  cases ran with
  | listed => exact absurd rfl failed
  | unlisted listing said refused later => exact .unlisted understood listing said refused later
  | unmade _ unmade untouched => exact .unmade understood unmade untouched
  | worked _ made worked =>
    cases worked with
    | unnamed none' untouched =>
      exact .stopped understood made (.unnamed none') (.of_quiet untouched)
    | unread named unread untouched =>
      exact .stopped understood made (.unreadable named unread) (.of_quiet untouched)
    | unwritten named read order wrote refused later =>
      exact .unwritten understood made named read order wrote refused later
    | faulty named read faulty wrote =>
      exact .stopped understood made (.faulty named read (Report.fails_of_fault faulty)) wrote
    | whole => exact absurd rfl failed

/-- Every run that ends with an error ends in one of these ways. -/
private theorem runWith_ends {logFilter : Option String} (laws : host.Laws quiet)
    (done : (runWith reader host args logFilter).run world = (code, final)) (failed : code ≠ 0) :
    Ends host quiet reader world args code final := by
  unfold runWith at done
  cases understood : reader args with
  | error refusal =>
    cases refusal with
    | usage =>
      simp only [understood] at done
      cases done
      exact .refused understood (laws.err _ world)
    | help =>
      simp only [understood] at done
      cases done
      exact absurd rfl failed
  | ok options =>
    simp only [understood] at done
    rw [run_bound] at done
    have said := chooseFilter_quiet laws options.verbosity logFilter world
    exact ran_ends understood ((runOptions_ran laws done).after_quiet laws said) failed

end Hosted

/-! ## In the small world -/

variable {world final : World} {options : Options}
  {reader : List String → Except Refusal Options} {args : List String} {code : Nat}

/-- The exit code and the world after a run that ends with an error. A run whose arguments are
refused or whose output file cannot be made has touched nothing. Any other has written what the
reason it stops for tells: to standard output, or to the output file, which holds nothing else
and is made before the input is looked for. Where the output is a device, no file changes. -/
inductive Aftermath (reader : List String → Except Refusal Options) (world : World)
    (args : List String) : Nat → World → Prop where
  | refused {final : World} (usage : reader args = .error .usage)
      (untouched : Quiet world final) : Aftermath reader world args 2 final
  | unmade {final : World} {options : Options} {path : String} {reason : FileFault}
      (understood : reader args = .ok options) (asked : options.output = some path)
      (failed : world.create path = .error reason) (untouched : Quiet world final) :
      Aftermath reader world args 1 final
  | printed {final : World} {options : Options} {text : String}
      (understood : reader args = .ok options) (asked : options.output = none)
      (stops : Stops World.host world options text) (files : final.files = world.files)
      (out : final.out = world.out ++ text) : Aftermath reader world args 1 final
  | filed {final : World} {options : Options} {path text : String} {place : Place}
      (understood : reader args = .ok options) (asked : options.output = some path)
      (found : world.find path true = .ok place) (regular : Device.at? place = none)
      (stops : Stops World.host (world.opened (some path)) options text)
      (out : final.out = world.out)
      (file : final.files.lookup place = some text)
      (others : ∀ other, other ≠ place → final.files.lookup other = world.files.lookup other) :
      Aftermath reader world args 1 final
  | swallowed {final : World} {options : Options} {path : String} {place : Place}
      {device : Device} (understood : reader args = .ok options)
      (asked : options.output = some path) (found : world.find path true = .ok place)
      (special : Device.at? place = some device) (files : final.files = world.files) :
      Aftermath reader world args 1 final

/-- A device keeps the files, whether it takes a text or not. -/
private theorem swallowed_of_kept {path : String} (understood : reader args = .ok options)
    (asked : options.output = some path) {place : Place} {device : Device}
    (found : world.find path true = .ok place) (special : Device.at? place = some device)
    (kept : final.files = (world.opened (some path)).files) :
    Aftermath reader world args 1 final := by
  rw [opened_device found special] at kept
  exact .swallowed understood asked found special kept

private theorem stopped_leaves {text : String} (understood : reader args = .ok options)
    (made : ((World.host.opening options.output).run world).1 = .ok ())
    (stops : Stops World.host (world.opened options.output) options text)
    (wrote : World.host.Wrote Quiet options.output (world.opened options.output) final text) :
    Aftermath reader world args 1 final := by
  cases asked : options.output with
  | none =>
    rw [asked] at stops wrote
    exact .printed understood asked stops (wrote.kept kept_files_of_out)
      (Option.some.inj (wrote.sink sink_out rfl))
  | some path =>
    rw [asked] at made stops wrote
    obtain ⟨place, found⟩ := find_of_made made
    cases special : Device.at? place with
    | some device =>
      exact swallowed_of_kept understood asked found special
        (wrote.kept (kept_files_of_device found special))
    | none =>
      have out := wrote.kept (kept_out_of_file found special)
      have others := fun other (apart : other ≠ place) =>
        wrote.kept (kept_other_file found special apart)
      have file := lookup_of_wrote found special wrote
      rw [opened_regular found special] at out others
      refine .filed understood asked found special stops out file ?_
      exact fun other apart => (others other apart).trans (lookup_setContent_ne apart "")

/-- Only a device refuses what is written to it. -/
private theorem unwritten_leaves {asked after : World} {reason taken text : String}
    (understood : reader args = .ok options)
    (made : ((World.host.opening options.output).run world).1 = .ok ())
    (wrote : World.host.Wrote Quiet options.output (world.opened options.output) asked taken)
    (refused : (World.host.write options.output text).run asked = (.error reason, after))
    (later : Quiet after final) : Aftermath reader world args 1 final := by
  cases output : options.output with
  | none =>
    rw [output] at refused
    cases (congrArg Prod.fst refused).symm.trans (out_takes text asked)
  | some path =>
    rw [output] at made wrote refused
    obtain ⟨place, found⟩ := find_of_made made
    cases special : Device.at? place with
    | some device =>
      have kept := kept_files_of_device found special
      have same : after.files = asked.files :=
        (congrArg (·.2.files) refused).symm.trans (kept.write text asked)
      exact swallowed_of_kept understood output found special
        (later.files.trans (same.trans (wrote.kept kept)))
    | none =>
      cases (congrArg Prod.fst refused).symm.trans (file_takes found special text asked)

/-- What a run leaves in the small world that ends with an error. -/
private theorem aftermath_of_ends (ends : Ends World.host Quiet reader world args code final) :
    Aftermath reader world args code final := by
  cases ends with
  | refused usage untouched => exact .refused usage untouched
  | unlisted understood listing said refused =>
    cases (congrArg Prod.fst refused).symm.trans (out_takes _ _)
  | unmade understood failed untouched =>
    obtain ⟨path, fault, asked, failed⟩ := create_of_unmade failed
    exact .unmade understood asked failed untouched
  | stopped understood made stops wrote =>
    rw [host_opened] at stops wrote
    exact stopped_leaves understood made stops wrote
  | unwritten understood made named read order wrote refused later =>
    rw [host_opened] at wrote
    exact unwritten_leaves understood made wrote refused later

/-- A run that ends with an error leaves what is told by the reason for it alone: nothing has
changed unless the output file was made, and what was written is a report on the functions that
came before the failure, if any, without the program. The output file is made before the input is
read, so a run that is to write where its input is reads nothing. The same is known of every
system that keeps the laws. How arguments are read makes no difference. -/
theorem failed_run_leaves :
    (∀ (reader : List String → Except Refusal Options) (args : List String)
      (logFilter : Option String) (world final : World) (code : Nat),
      (runWith reader World.host args logFilter).run world = (code, final) → code ≠ 0 →
        Aftermath reader world args code final) ∧
    (∀ (world : World) (path input : String) (place : Place),
      world.find path true = .ok place → Device.at? place = none →
        world.find input false = .ok place → (world.opened (some path)).read input = .ok "") ∧
    ∀ {σ : Type} {host : Host (StateM σ)} {quiet : σ → σ → Prop}, host.Laws quiet →
      ∀ (reader : List String → Except Refusal Options) (args : List String)
        (logFilter : Option String) (world final : σ) (code : Nat),
        (runWith reader host args logFilter).run world = (code, final) → code ≠ 0 →
          Ends host quiet reader world args code final := by
  refine ⟨fun reader args logFilter world final code done failed =>
    aftermath_of_ends (runWith_ends host_laws done failed), ?_,
    fun laws reader args logFilter world final code done failed => runWith_ends laws done failed⟩
  intro world path input place found regular same
  have emptied := opened_empty found regular
  have again : (world.opened (some path)).find input false = .ok place :=
    (find_either_way (find_making (find_either_way same).1)).2 (by simp [isFile, emptied])
  rw [World.read, again]
  dsimp only [bind, Except.bind]
  rw [emptied]
  rfl

/-- Two kernels, of which only the first has a block `body`, and what an earlier run has written. -/
def unevenWorld : World := World.ofFiles
  [("in.ll", "define void @f() \x7b body: ret void \x7d define void @g() \x7b entry: ret void \x7d"),
    ("out.ll", "earlier")]

/-- The arguments that ask for a report on the region `body`. -/
def regionArgs (output : List String) : List String :=
  ["--analyze", "--region", "body"] ++ output ++ ["in.ll"]

/-- The run on both kernels fails on the second. By then the report on the first is in the output
file, in place of what was there, or on standard output. Where the input file is the output file,
its text is gone before it is read. -/
theorem uneven_run_changes_output :
    ((run World.host (regionArgs ["-o", "out.ll"]) none).run unevenWorld).1 = 1 ∧
    ((run World.host (regionArgs ["-o", "out.ll"]) none).run unevenWorld).2.content? "out.ll" ≠
      unevenWorld.content? "out.ll" ∧
    ((run World.host (regionArgs []) none).run unevenWorld).1 = 1 ∧
    ((run World.host (regionArgs []) none).run unevenWorld).2.out ≠ unevenWorld.out ∧
    (unevenWorld.opened (some "in.ll")).read "in.ll" ≠ unevenWorld.read "in.ll" := by
  decide +kernel

/-- The same world behind a standard output that is closed. -/
def closedHost : Host (StateM World) :=
  { World.host with out _ := return .error "Broken pipe (os error 32)" }

/-- What that run leaves, what is left to read of the input where it is the output file, and what
a run leaves that cannot write the program. -/
theorem uneven_run_leaves :
    Aftermath Options.ofArgs unevenWorld (regionArgs ["-o", "out.ll"]) 1
      ((run World.host (regionArgs ["-o", "out.ll"]) none).run unevenWorld).2 ∧
    (unevenWorld.opened (some "in.ll")).read "./in.ll" = .ok "" ∧
    Ends closedHost Quiet Options.ofArgs unevenWorld ["in.ll"] 1
      ((run closedHost ["in.ll"] none).run unevenWorld).2 := by
  have ended : ((run World.host (regionArgs ["-o", "out.ll"]) none).run unevenWorld).1 = 1 := by
    decide +kernel
  have unwritten : ((run closedHost ["in.ll"] none).run unevenWorld).1 = 1 := by
    decide +kernel
  exact ⟨failed_run_leaves.1 _ _ none unevenWorld _ 1 (Prod.ext ended rfl) Nat.one_ne_zero,
    failed_run_leaves.2.1 unevenWorld "in.ll" "./in.ll" ["tmp", "run", "in.ll"] rfl rfl rfl,
    failed_run_leaves.2.2 (host_laws.other_out _) _ _ none unevenWorld _ 1
      (Prod.ext unwritten rfl) Nat.one_ne_zero⟩

end KernelGuard.Command
