import KernelGuard.Command.Run

/-! Runs of the command on a system that is known by its laws alone. Everything a run says goes
to standard error, which it never looks at again, so it reads, makes and writes as if nothing had
been said. The ways in which it ends follow, with what it has written by then. -/
namespace KernelGuard

variable {σ : Type} {host : Host (StateM σ)} {quiet : σ → σ → Prop}

namespace Host

/-- What a run relies on. Some steps of the system are quiet, which means that the command sees
nothing of them: what is said is quiet, so is looking at a file, and so is a file that cannot be
made. What is read and what is made is the same before and after a quiet step. -/
structure Laws (host : Host (StateM σ)) (quiet : σ → σ → Prop) : Prop where
  refl (world : σ) : quiet world world
  trans {first second third : σ} :
    quiet first second → quiet second third → quiet first third
  err (line : String) (world : σ) : quiet world ((host.err line).run world).2
  read (path : String) (world : σ) : quiet world ((host.read path).run world).2
  unmade {path reason : String} {world after : σ} :
    (host.create path).run world = (.error reason, after) → quiet world after
  reads_alike {world after : σ} (path : String) :
    quiet world after → ((host.read path).run after).1 = ((host.read path).run world).1
  makes_alike {world after : σ} (path : String) : quiet world after →
    ((host.create path).run after).1 = ((host.create path).run world).1 ∧
    quiet ((host.create path).run world).2 ((host.create path).run after).2

/-- The system once the output file is made, if one is asked for. -/
def opened (host : Host (StateM σ)) (output : Option String) (world : σ) : σ :=
  ((host.opening output).run world).2

/-- Where the output of a run can be seen, one text behind the other. -/
structure Sink (host : Host (StateM σ)) (quiet : σ → σ → Prop) (output : Option String)
    (content : σ → Option String) : Prop where
  appends {world after : σ} {old text : String} :
    (host.write output text).run world = (.ok (), after) → content world = some old →
      content after = some (old ++ text)
  silent {world after : σ} : quiet world after → content after = content world

/-- Something about the system that changes neither by output nor by what is said. -/
structure Kept {α : Type} (host : Host (StateM σ)) (quiet : σ → σ → Prop) (output : Option String)
    (view : σ → α) : Prop where
  write (text : String) (world : σ) : view ((host.write output text).run world).2 = view world
  silent {world after : σ} : quiet world after → view after = view world

/-- Between two states a text was written as output, and nothing else was done. -/
structure Wrote (host : Host (StateM σ)) (quiet : σ → σ → Prop) (output : Option String)
    (world after : σ) (text : String) : Prop where
  sink {content : σ → Option String} {old : String} : host.Sink quiet output content →
    content world = some old → content after = some (old ++ text)
  kept {α : Type} {view : σ → α} : host.Kept quiet output view → view after = view world

variable {output : Option String} {world after final : σ} {text more : String}

theorem Wrote.of_quiet (said : quiet world after) : host.Wrote quiet output world after "" where
  sink sink before := by rw [String.append_empty, sink.silent said, before]
  kept kept := kept.silent said

theorem Wrote.of_write (done : (host.write output text).run world = (.ok (), after)) :
    host.Wrote quiet output world after text where
  sink sink before := sink.appends done before
  kept {_ view} kept := (congrArg (view ·.2) done).symm.trans (kept.write text world)

theorem Wrote.trans (first : host.Wrote quiet output world after text)
    (second : host.Wrote quiet output after final more) :
    host.Wrote quiet output world final (text ++ more) where
  sink sink before := by
    rw [second.sink sink (first.sink sink before), String.append_assoc]
  kept kept := (second.kept kept).trans (first.kept kept)

theorem Wrote.before_quiet (wrote : host.Wrote quiet output world after text)
    (said : quiet after final) : host.Wrote quiet output world final text :=
  String.append_empty (s := text) ▸ wrote.trans (.of_quiet said)

theorem Wrote.after_quiet (said : quiet world after)
    (wrote : host.Wrote quiet output after final text) :
    host.Wrote quiet output world final text :=
  String.empty_append (s := text) ▸ (Wrote.of_quiet said).trans wrote

/-- An output file is made alike after a quiet step. -/
theorem Laws.opens_alike (laws : host.Laws quiet) (output : Option String)
    (said : quiet world after) :
    ((host.opening output).run after).1 = ((host.opening output).run world).1 ∧
      quiet (host.opened output world) (host.opened output after) := by
  cases output with
  | none => exact ⟨rfl, said⟩
  | some path => exact laws.makes_alike path said

/-- One that cannot be made is not. -/
theorem Laws.unopened {reason : String} (laws : host.Laws quiet)
    (failed : (host.opening output).run world = (.error reason, after)) : quiet world after := by
  cases output with
  | none => cases failed
  | some path => exact laws.unmade failed

/-- The laws do not depend on what standard output does with texts. -/
theorem Laws.other_out (laws : host.Laws quiet) (out : String → StateM σ (Except String Unit)) :
    Laws { host with out } quiet where
  refl := laws.refl
  trans := laws.trans
  err := laws.err
  read := laws.read
  unmade := laws.unmade
  reads_alike := laws.reads_alike
  makes_alike := laws.makes_alike

end Host

namespace Command

open Host

variable {filter : LogFilter} {options : Options} {output : Option String} {world after final : σ}
  {code : Nat}

/-! ## What is said -/

/-- A run goes on with what its first part gives, in the state that part leaves. -/
theorem run_bound {α β : Type} (first : StateM σ α) (next : α → StateM σ β) (world : σ) :
    (first >>= next).run world = (next (first.run world).1).run (first.run world).2 := rfl

theorem announce_quiet (laws : host.Laws quiet) (filter : LogFilter) (notice : Notice) (world : σ) :
    quiet world ((announce host filter notice).run world).2 := by
  unfold announce
  split
  · split
    · exact laws.err _ world
    · exact laws.refl world
  · exact laws.err _ world

/-- Steps that only say something say something together. -/
theorem forM_quiet {α : Type} {step : α → StateM σ Unit} (laws : host.Laws quiet)
    (each : ∀ item world, quiet world ((step item).run world).2) (items : List α) (world : σ) :
    quiet world ((items.forM step).run world).2 := by
  induction items generalizing world with
  | nil => exact laws.refl world
  | cons item rest ih => exact laws.trans (each item world) (ih _)

theorem chooseFilter_quiet (laws : host.Laws quiet) (verbosity : Nat) (logFilter : Option String)
    (world : σ) : quiet world ((chooseFilter host verbosity logFilter).run world).2 := by
  cases logFilter with
  | none => exact laws.refl world
  | some text =>
    unfold chooseFilter
    rw [run_bound]
    exact forM_quiet laws (fun report world => laws.err _ world) _ world

/-! ## What is presented -/

/-- Pieces are written in full, or up to the first that is refused. -/
theorem present_cases {sections : List Section} {result : Except String Unit}
    (laws : host.Laws quiet)
    (done : (present host filter (host.write output) sections).run world = (result, final)) :
    (result = .ok () ∧
      host.Wrote quiet output world final (String.join (sections.map (·.text)))) ∨
    ∃ taken piece rest asked reason, sections = taken ++ piece :: rest ∧ result = .error reason ∧
      host.Wrote quiet output world asked (String.join (taken.map (·.text))) ∧
      (host.write output piece.text).run asked = (.error reason, final) := by
  induction sections generalizing world with
  | nil =>
    cases done
    exact .inl ⟨rfl, .of_quiet (laws.refl _)⟩
  | cons piece rest ih =>
    have announced := forM_quiet laws (announce_quiet laws filter) piece.notices world
    generalize ran : ((piece.notices.forM (announce host filter)).run world).2 = said at announced
    rw [present, run_bound, ran, run_bound] at done
    rcases wrote : (host.write output piece.text).run said with ⟨reason | _, after⟩
    · rw [wrote] at done
      cases done
      exact .inr ⟨[], piece, rest, said, reason, rfl, rfl, .of_quiet announced, wrote⟩
    · rw [wrote] at done
      have here : host.Wrote quiet output world after piece.text :=
        .after_quiet announced (.of_write wrote)
      rcases ih done with ⟨whole, later⟩ | ⟨taken, next, rest, asked, reason, rfl, failed, later⟩
      · refine .inl ⟨whole, ?_⟩
        rw [List.map_cons, String.join_cons]
        exact here.trans later
      · refine .inr ⟨piece :: taken, next, rest, asked, reason, rfl, failed, ?_, later.2⟩
        rw [List.map_cons, String.join_cons]
        exact here.trans later.1

/-! ## The ways to end -/

/-- The ways in which work on the input ends, each with its exit code. -/
inductive Worked (host : Host (StateM σ)) (quiet : σ → σ → Prop) (options : Options) (world : σ) :
    Nat → σ → Prop where
  | unnamed {final : σ} (none' : options.input = none) (untouched : quiet world final) :
      Worked host quiet options world 1 final
  | unread {final : σ} {input reason : String} (named : options.input = some input)
      (unread : ((host.read input).run world).1 = .error reason) (untouched : quiet world final) :
      Worked host quiet options world 1 final
  | unwritten {asked after final : σ} {input source reason : String} {taken rest : List Section}
      {piece : Section} (named : options.input = some input)
      (read : ((host.read input).run world).1 = .ok source)
      (order : (Report.run options source).sections = taken ++ piece :: rest)
      (wrote : host.Wrote quiet options.output world asked (String.join (taken.map (·.text))))
      (refused : (host.write options.output piece.text).run asked = (.error reason, after))
      (said : quiet after final) : Worked host quiet options world 1 final
  | faulty {final : σ} {input source : String} {fault : Fault} (named : options.input = some input)
      (read : ((host.read input).run world).1 = .ok source)
      (failed : (Report.run options source).fault = some fault)
      (wrote : host.Wrote quiet options.output world final (Report.run options source).output) :
      Worked host quiet options world 1 final
  | whole {final : σ} {input source : String} (named : options.input = some input)
      (read : ((host.read input).run world).1 = .ok source)
      (faultless : (Report.run options source).fault = none)
      (wrote : host.Wrote quiet options.output world final (Report.run options source).output) :
      Worked host quiet options world 0 final

/-- Work that follows a quiet step could have been done in front of it. -/
theorem Worked.after_quiet (laws : host.Laws quiet) (said : quiet world after)
    (worked : Worked host quiet options after code final) :
    Worked host quiet options world code final := by
  have alike := fun input => (laws.reads_alike input said).symm
  cases worked with
  | unnamed none' untouched => exact .unnamed none' (laws.trans said untouched)
  | unread named unread untouched =>
    exact .unread named ((alike _).trans unread) (laws.trans said untouched)
  | unwritten named read order wrote refused later =>
    exact .unwritten named ((alike _).trans read) order (wrote.after_quiet said) refused later
  | faulty named read failed wrote =>
    exact .faulty named ((alike _).trans read) failed (wrote.after_quiet said)
  | whole named read faultless wrote =>
    exact .whole named ((alike _).trans read) faultless (wrote.after_quiet said)

theorem fail_quiet (laws : host.Laws quiet) (message : String) (world : σ) :
    quiet world ((fail host message).run world).2 := laws.err _ world

/-- Work on an input that is named. -/
private theorem process_worked {input : String} (laws : host.Laws quiet)
    (named : options.input = some input)
    (done : (process host filter options (host.write options.output) input).run world =
      (code, final)) : Worked host quiet options world code final := by
  unfold process at done
  rw [run_bound] at done
  have looked := laws.read input world
  rcases given : (host.read input).run world with ⟨reason | source, ready⟩
  · rw [given] at done looked
    cases done
    exact .unread named (congrArg Prod.fst given) (laws.trans looked (fail_quiet laws _ ready))
  · rw [given] at done looked
    have read := congrArg Prod.fst given
    dsimp only at done
    rw [run_bound] at done
    rcases presented : (present host filter (host.write options.output)
      (Report.run options source).sections).run ready with ⟨result, shown⟩
    rw [presented] at done
    rcases present_cases laws presented with
      ⟨rfl, wrote⟩ | ⟨taken, piece, rest, asked, reason, order, rfl, wrote, refused⟩
    · have output := wrote.after_quiet looked
      cases failed : (Report.run options source).fault with
      | some fault =>
        simp only [failed] at done
        cases done
        exact .faulty named read failed (output.before_quiet (fail_quiet laws _ shown))
      | none =>
        simp only [failed] at done
        cases done
        exact .whole named read failed output
    · cases done
      exact .unwritten named read order (wrote.after_quiet looked) refused
        (fail_quiet laws _ shown)

private theorem processInput_worked (laws : host.Laws quiet)
    (done : (processInput host filter options (host.write options.output)).run world =
      (code, final)) : Worked host quiet options world code final := by
  unfold processInput at done
  cases named : options.input with
  | some input =>
    simp only [named] at done
    exact process_worked laws named done
  | none =>
    simp only [named] at done
    cases done
    exact .unnamed named (laws.err _ world)

/-- The ways in which a run with options ends: it lists the passes or cannot, it cannot make the
output file, or it has made it before everything else and works on the input. -/
inductive Ran (host : Host (StateM σ)) (quiet : σ → σ → Prop) (options : Options) (world : σ) :
    Nat → σ → Prop where
  | listed {final : σ} (listing : options.listPasses = true)
      (wrote : host.Wrote quiet none world final (passList .standard)) :
      Ran host quiet options world 0 final
  | unlisted {asked after final : σ} {reason : String} (listing : options.listPasses = true)
      (said : quiet world asked)
      (refused : (host.out (passList .standard)).run asked = (.error reason, after))
      (later : quiet after final) : Ran host quiet options world 101 final
  | unmade {final : σ} {reason : String} (working : options.listPasses = false)
      (failed : ((host.opening options.output).run world).1 = .error reason)
      (untouched : quiet world final) : Ran host quiet options world 1 final
  | worked {code : Nat} {final : σ} (working : options.listPasses = false)
      (made : ((host.opening options.output).run world).1 = .ok ())
      (worked : Worked host quiet options (host.opened options.output world) code final) :
      Ran host quiet options world code final

theorem Ran.after_quiet (laws : host.Laws quiet) (said : quiet world after)
    (ran : Ran host quiet options after code final) : Ran host quiet options world code final := by
  have opened := laws.opens_alike options.output said
  cases ran with
  | listed listing wrote => exact .listed listing (wrote.after_quiet said)
  | unlisted listing first refused later =>
    exact .unlisted listing (laws.trans said first) refused later
  | unmade working failed untouched =>
    exact .unmade working (opened.1.symm.trans failed) (laws.trans said untouched)
  | worked working made worked =>
    exact .worked working (opened.1.symm.trans made) (worked.after_quiet laws opened.2)

/-- Every run with options ends in one of these ways. -/
theorem runOptions_ran (laws : host.Laws quiet)
    (done : (runOptions host filter options).run world = (code, final)) :
    Ran host quiet options world code final := by
  have said := announce_quiet laws filter (.entry ⟨.trace, .command, "start"⟩) world
  unfold runOptions at done
  rw [run_bound] at done
  generalize ((announce host filter (.entry ⟨.trace, .command, "start"⟩)).run world).2 = started
    at said done
  refine .after_quiet laws said ?_
  cases listing : options.listPasses with
  | true =>
    simp only [listing, if_true] at done
    rw [run_bound] at done
    rcases wrote : (host.out (passList .standard)).run started with ⟨reason | _, after⟩
    · rw [wrote] at done
      cases done
      exact .unlisted listing (laws.refl started) wrote (laws.err _ after)
    · rw [wrote] at done
      cases done
      have listed : (host.write none (passList .standard)).run started = (.ok (), after) := wrote
      exact .listed listing (.of_write listed)
  | false =>
    simp only [listing, Bool.false_eq_true, if_false] at done
    rw [run_bound] at done
    rcases made : (host.opening options.output).run started with ⟨reason | _, created⟩
    · rw [made] at done
      cases done
      exact .unmade listing (congrArg Prod.fst made)
        (laws.trans (laws.unopened made) (fail_quiet laws _ created))
    · rw [made] at done
      have opened : host.opened options.output started = created := congrArg Prod.snd made
      exact .worked listing (congrArg Prod.fst made) (opened ▸ processInput_worked laws done)

/-- A run that ends well writes the output of its report where it writes to, on any system. -/
theorem hosted_run_writes_report (laws : host.Laws quiet) (working : options.listPasses = false)
    (done : (runOptions host filter options).run world = (0, final)) :
    ∃ input source, options.input = some input ∧
      ((host.read input).run (host.opened options.output world)).1 = .ok source ∧
      (Report.run options source).fault = none ∧
      host.Wrote quiet options.output (host.opened options.output world) final
        (Report.run options source).output := by
  cases runOptions_ran laws done with
  | listed listing => cases working.symm.trans listing
  | worked _ _ worked =>
    cases worked with
    | whole named read faultless wrote => exact ⟨_, _, named, read, faultless, wrote⟩

end Command

end KernelGuard
