import KernelGuard.Command.World
import KernelGuard.Proofs.HostedRuns
import KernelGuard.Proofs.Readable

/-! What a run of the command writes, in the small world. Its output is written piece by piece,
with notices in between that go elsewhere, to standard output or to a file that is made first. A
run that ends well has written all that its report says. -/
namespace KernelGuard

namespace World

variable {world other : World} {path : String} {place : Place}

/-- Nothing but standard error differs. -/
structure Quiet (world after : World) : Prop where
  files : after.files = world.files
  out : after.out = world.out

theorem quiet_refl (world : World) : Quiet world world := ⟨rfl, rfl⟩

theorem Quiet.trans {first second third : World} (before : Quiet first second)
    (after : Quiet second third) : Quiet first third :=
  ⟨after.files.trans before.files, after.out.trans before.out⟩

/-- The world once the output file is made, if one is asked for. -/
def opened (world : World) : Option String → World
  | none => world
  | some path => (world.create path).toOption.getD world

/-- What was written between two worlds: to the end of standard output or, if there is a path
to a regular file, to that file, which holds nothing else. -/
def Written (world final : World) (output : Option String) (text : String) : Prop :=
  match output with
  | none => final.out = world.out ++ text
  | some path => ∀ place, world.find path true = .ok place → Device.at? place = none →
    final.files.lookup place = some text

/-! ## Paths -/

/-- Where a path leads depends on the files alone. -/
private theorem find_of_same_files (files : other.files = world.files) :
    other.find = world.find := by
  have same : other.isFile = world.isFile := by
    funext place
    rw [isFile, isFile, files]
  have entered : other.enter = world.enter := by
    funext place names
    induction names generalizing place with
    | nil => rfl
    | cons name rest ih => simp only [enter, same, ih]
  funext path making
  unfold find
  rw [entered, same]

/-- So does what is read there. -/
theorem read_of_same_files (files : other.files = world.files) (path : String) :
    other.read path = world.read path := by
  rw [read, read, find_of_same_files files, files]

/-- The directories on the way to a file are the same in every world. -/
private theorem enter_anywhere {names : List String} {start directory : Place}
    (entered : world.enter start names = .ok directory) :
    other.enter start names = .ok directory := by
  induction names generalizing start with
  | nil => exact entered
  | cons name rest ih =>
    unfold enter at entered ⊢
    by_cases here : name = "."
    · simp only [if_pos here] at entered ⊢
      exact ih entered
    by_cases up : name = ".."
    · simp only [if_neg here, if_pos up] at entered ⊢
      exact ih entered
    by_cases long : name.utf8ByteSize > nameLimit
    · simp only [if_neg here, if_neg up, if_pos long] at entered
      cases entered
    by_cases down : Place.isDirectory (start ++ [name]) = true
    · simp only [if_neg here, if_neg up, if_neg long, if_pos down] at entered ⊢
      exact ih entered
    · simp only [if_neg here, if_neg up, if_neg long, if_neg down] at entered
      cases entered

/-- A path leads to a file if it names one in a directory that is there, without a slash at the
end, and if the file is about to be made or there already. -/
private theorem find_eq_ok_iff {making : Bool} :
    world.find path making = .ok place ↔
      (path.utf8ByteSize ≤ pathLimit ∧ path ≠ "" ∧ (fields '/' path).getLast? ≠ some "" ∧
        ∃ directory name,
          world.enter (if (fields '/' path).head? = some "" then [] else Place.working)
            ((fields '/' path).filter (· ≠ "")).dropLast = .ok directory ∧
          ((fields '/' path).filter (· ≠ "")).getLast? = some name ∧ name ≠ "." ∧ name ≠ ".." ∧
          name.utf8ByteSize ≤ nameLimit ∧ directory ++ [name] = place ∧
          Place.isDirectory place = false ∧ Device.at? place ≠ some .terminal) ∧
      (making = true ∨ world.isFile place = true) := by
  unfold find
  dsimp only
  constructor
  · intro found
    by_cases long : path.utf8ByteSize > pathLimit
    · rw [if_pos long] at found
      cases found
    by_cases empty : path = ""
    · rw [if_neg long, if_pos empty] at found
      cases found
    rw [if_neg long, if_neg empty] at found
    obtain ⟨directory, reached, found⟩ := bind_gives found
    split at found
    · cases found
    · cases found
    · cases found
    · rename_i name here up last
      -- a slash at the end is refused for a file that is there and for one that is made
      by_cases slashed : (fields '/' path).getLast? = some ""
      · cases making <;> grind
      · refine ⟨⟨Nat.le_of_not_lt long, empty, slashed, directory, name, reached, last, here, up,
          ?_⟩, ?_⟩ <;> grind
  · rintro ⟨⟨short, some', plain, directory, name, reached, last, here, up, brief, rfl, file,
      device⟩, there⟩
    rw [if_neg (Nat.not_lt.mpr short), if_neg some', reached]
    dsimp only [bind, Except.bind]
    split
    · simp_all
    · simp_all
    · simp_all
    · grind

/-- Whether a file can be made does not depend on the files that are there. -/
theorem find_making (found : world.find path true = .ok place) :
    other.find path true = .ok place := by
  obtain ⟨⟨short, some', plain, directory, name, reached, there⟩, -⟩ := find_eq_ok_iff.mp found
  exact find_eq_ok_iff.mpr
    ⟨⟨short, some', plain, directory, name, enter_anywhere reached, there⟩, .inl rfl⟩

/-- A path that leads to a file leads there whether the file is made or read, once it is there. -/
theorem find_either_way {making : Bool} (found : world.find path making = .ok place) :
    world.find path true = .ok place ∧
      (world.isFile place = true → world.find path false = .ok place) := by
  have leads := (find_eq_ok_iff.mp found).1
  exact ⟨find_eq_ok_iff.mpr ⟨leads, .inl rfl⟩, fun there => find_eq_ok_iff.mpr ⟨leads, .inr there⟩⟩

/-- A file has the content that it was given last. -/
theorem lookup_setContent (world : World) (place : Place) (content : String) :
    (world.setContent place content).files.lookup place = some content := by
  simp [setContent]

/-- The other files keep theirs. -/
theorem lookup_setContent_ne {asked : Place} (apart : asked ≠ place) (content : String) :
    (world.setContent place content).files.lookup asked = world.files.lookup asked := by
  rw [setContent, List.lookup_cons, beq_eq_false_iff_ne.mpr apart]
  dsimp only
  induction world.files with
  | nil => rfl
  | cons file rest ih =>
    obtain ⟨here, text⟩ := file
    by_cases same : here = place
    · subst same
      simpa [List.lookup_cons, beq_eq_false_iff_ne.mpr apart] using ih
    · simp only [List.filter_cons, ne_eq, same, not_false_iff, decide_true, if_true,
        List.lookup_cons]
      simp only [ne_eq] at ih
      rw [ih]

/-- The output file is empty once it is opened, unless it is a device. -/
private theorem opened_of_found (found : world.find path true = .ok place) :
    world.opened (some path) =
      if (Device.at? place).isSome then world else world.setContent place "" := by
  rw [opened, create, found]
  rfl

theorem opened_regular (found : world.find path true = .ok place)
    (regular : Device.at? place = none) :
    world.opened (some path) = world.setContent place "" := by
  rw [opened_of_found found, regular, Option.isSome_none, if_neg Bool.false_ne_true]

theorem opened_empty (found : world.find path true = .ok place)
    (regular : Device.at? place = none) :
    (world.opened (some path)).files.lookup place = some "" := by
  rw [opened_regular found regular, lookup_setContent]

theorem opened_device {device : Device} (found : world.find path true = .ok place)
    (special : Device.at? place = some device) : world.opened (some path) = world := by
  rw [opened_of_found found, special, Option.isSome_some, if_pos rfl]

/-- The way in which a step of the world that may fail runs. -/
private theorem run_step (change : World → Except FileFault World) (world : World) :
    (step change).run world = match change world with
      | .ok next => (.ok (), next)
      | .error fault => (.error fault.message, world) := by
  have ran : (step change).run world =
      (match change world with
        | .ok next => do
          set next
          return .ok ()
        | .error fault => return .error fault.message :
        StateM World (Except String Unit)).run world := rfl
  rw [ran]
  cases change world <;> rfl

private theorem host_create (path : String) (world : World) :
    (World.host.create path).run world = match world.create path with
      | .ok next => (.ok (), next)
      | .error fault => (.error fault.message, world) := run_step (·.create path) world

private theorem host_read (path : String) (world : World) :
    ((World.host.read path).run world).1 = (world.read path).mapError FileFault.message := rfl

/-- Saying something first makes no difference to a file that is made. -/
private theorem create_alike (said : Quiet world other) (path : String) :
    (∃ fault, world.create path = .error fault ∧ other.create path = .error fault) ∨
      ∃ made again, world.create path = .ok made ∧ other.create path = .ok again ∧
        Quiet made again := by
  unfold create
  rw [find_of_same_files said.files]
  cases found : world.find path true with
  | error fault => exact .inl ⟨fault, rfl, rfl⟩
  | ok place =>
    refine .inr ⟨_, _, rfl, rfl, ?_⟩
    split
    · exact said
    · exact ⟨by simp [setContent, said.files], said.out⟩

/-- The world is one in which a run does as it does on any system. -/
theorem host_laws : World.host.Laws Quiet where
  refl := quiet_refl
  trans := Quiet.trans
  err _ _ := ⟨rfl, rfl⟩
  read _ world := quiet_refl world
  unmade {path _ world _} failed := by
    rw [host_create] at failed
    split at failed
    · cases failed
    · cases failed
      exact quiet_refl world
  reads_alike path said := by rw [host_read, host_read, read_of_same_files said.files]
  makes_alike path said := by
    rw [host_create, host_create]
    rcases create_alike said path with ⟨fault, failed, again⟩ | ⟨made, again, once, twice, alike⟩
    · rw [failed, again]
      exact ⟨rfl, said⟩
    · rw [once, twice]
      exact ⟨rfl, alike⟩

/-- The output file is opened as on any system. -/
theorem host_opened (world : World) (output : Option String) :
    World.host.opened output world = world.opened output := by
  cases output with
  | none => rfl
  | some path =>
    rw [Host.opened, Host.opening, host_create, opened]
    cases world.create path <;> rfl

/-- A path whose file is made leads to a file. -/
theorem find_of_made (made : ((World.host.opening (some path)).run world).1 = .ok ()) :
    ∃ place, world.find path true = .ok place := by
  rw [Host.opening, host_create] at made
  cases created : world.create path with
  | error fault =>
    rw [created] at made
    cases made
  | ok after =>
    obtain ⟨place, found, -⟩ := bind_gives created
    exact ⟨place, found⟩

/-- Making a file fails as on any system, with the reason in the system's words. -/
theorem create_of_unmade {output : Option String} {reason : String}
    (failed : ((World.host.opening output).run world).1 = .error reason) :
    ∃ path fault, output = some path ∧ world.create path = .error fault := by
  cases output with
  | none => cases failed
  | some path =>
    rw [Host.opening, host_create] at failed
    cases created : world.create path with
    | error fault => exact ⟨path, fault, rfl, created⟩
    | ok after =>
      rw [created] at failed
      cases failed

/-- What is read is read as on any system. -/
theorem read_of_given {input source : String}
    (given : ((World.host.read input).run world).1 = .ok source) :
    world.read input = .ok source := by
  rw [host_read] at given
  cases read : world.read input with
  | error fault =>
    rw [read] at given
    cases given
  | ok content =>
    rw [read] at given
    cases given
    rfl

/-! ## Where texts go -/

theorem sink_out : World.host.Sink Quiet none fun world => some world.out where
  appends := by
    rintro world after old text wrote ⟨⟩
    cases wrote
    rfl
  silent quiet := by rw [quiet.out]

theorem kept_files_of_out : World.host.Kept Quiet none (·.files) where
  write _ _ := rfl
  silent quiet := quiet.files

/-- Standard output takes every text. -/
theorem out_takes (text : String) (now : World) :
    ((World.host.write none text).run now).1 = .ok () := rfl

/-- What is added to a regular file that can be made. -/
private theorem write_regular (found : world.find path true = .ok place)
    (regular : Device.at? place = none) (text : String) (now : World) :
    (World.host.write (some path) text).run now =
      (.ok (), now.setContent place ((now.files.lookup place).getD "" ++ text)) := by
  have ran : (World.host.append path text).run now = _ := run_step (·.append path text) now
  rw [Host.write, ran, append, find_making found]
  dsimp only [bind, Except.bind]
  simp only [regular]
  rfl

/-- A regular file that can be made takes every text as well. -/
theorem file_takes (found : world.find path true = .ok place)
    (regular : Device.at? place = none) (text : String) (now : World) :
    ((World.host.write (some path) text).run now).1 = .ok () :=
  congrArg Prod.fst (write_regular found regular text now)

/-- And it holds all that is added to it. -/
theorem sink_file (found : world.find path true = .ok place) (regular : Device.at? place = none) :
    World.host.Sink Quiet (some path) fun world => world.files.lookup place where
  appends := by
    intro world after old text wrote before
    rw [write_regular found regular, before] at wrote
    cases wrote
    exact lookup_setContent _ _ _
  silent quiet := by rw [quiet.files]

/-- What is written there from the opening on is all that it holds. -/
theorem lookup_of_wrote {final : World} {text : String} (found : world.find path true = .ok place)
    (regular : Device.at? place = none)
    (wrote : World.host.Wrote Quiet (some path) (world.opened (some path)) final text) :
    final.files.lookup place = some text :=
  (wrote.sink (sink_file found regular) (opened_empty found regular)).trans
    (congrArg some String.empty_append)

theorem kept_out_of_file (found : world.find path true = .ok place)
    (regular : Device.at? place = none) : World.host.Kept Quiet (some path) (·.out) where
  write text now := by rw [write_regular found regular]; rfl
  silent quiet := quiet.out

theorem kept_other_file {asked : Place} (found : world.find path true = .ok place)
    (regular : Device.at? place = none) (apart : asked ≠ place) :
    World.host.Kept Quiet (some path) (·.files.lookup asked) where
  write text now := by
    rw [write_regular found regular]
    exact lookup_setContent_ne apart _
  silent quiet := by rw [quiet.files]

/-- A device takes texts or refuses them, and no file changes. -/
theorem kept_files_of_device {device : Device} (found : world.find path true = .ok place)
    (special : Device.at? place = some device) :
    World.host.Kept Quiet (some path) (·.files) where
  write text now := by
    have ran : (World.host.append path text).run now = _ := run_step (·.append path text) now
    rw [Host.write, ran, append, find_making found]
    dsimp only [bind, Except.bind]
    rw [special]
    cases device with
    | full => by_cases empty : text = "" <;> simp [empty, pure, Except.pure]
    | null | terminal | output | errors => rfl
  silent quiet := quiet.files

end World

namespace Command

open World

/-- A run with options that ends well writes the output of its report, and that is all it
writes there. -/
theorem run_writes_report {filter : LogFilter} {options : Options} {world final : World}
    (working : options.listPasses = false)
    (done : (runOptions World.host filter options).run world = (0, final)) :
    ∃ input source, options.input = some input ∧
      (world.opened options.output).read input = .ok source ∧
      (Report.run options source).fault = none ∧
      Written world final options.output (Report.run options source).output := by
  obtain ⟨input, source, named, read, faultless, wrote⟩ :=
    hosted_run_writes_report host_laws working done
  rw [host_opened] at read wrote
  refine ⟨input, source, named, read_of_given read, faultless, ?_⟩
  cases asked : options.output with
  | none =>
    rw [asked] at wrote
    exact Option.some.inj (wrote.sink sink_out rfl)
  | some path =>
    rw [asked] at wrote
    exact fun place found regular => lookup_of_wrote found regular wrote

end Command

end KernelGuard
