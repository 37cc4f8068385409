import KernelGuard.Pass.Registry
import Mathlib.Data.List.Dedup

/-! What running a pass comes to. A pass is handed the functions of a program one after the
other, with the state that it has come to by then. Applying it folds over the functions, and
running it by its name loops over them; both leave what the pass left of each function, and
both say that something changed exactly when the pass said so of some function. By its name a
pass is the one that was registered last under that name. -/
namespace KernelGuard

namespace Pass

/-- A pass is handed some functions, each once and in order, and starts on each in the state
that the one before left, whether or not that one changed. The results are what it made of the
functions and whether it said that they changed. -/
inductive Visits (pass : Pass) : pass.State → List Func → List (Func × Bool) → Prop where
  | done : Visits pass state [] []
  | next (ran : (pass.run state func).value = (after, result))
      (rest : Visits pass after functions results) :
      Visits pass state (func :: functions) (result :: results)

variable {pass : Pass} {state : pass.State} {functions : List Func}
  {results : List (Func × Bool)}

/-- Every list of functions can be visited. -/
theorem visits_exist (state : pass.State) (functions : List Func) :
    ∃ results, pass.Visits state functions results := by
  induction functions generalizing state with
  | nil => exact ⟨[], .done⟩
  | cons func rest ih =>
    rcases ran : (pass.run state func).value with ⟨after, result⟩
    obtain ⟨results, visits⟩ := ih after
    exact ⟨result :: results, .next ran visits⟩

/-- The fold adds the functions that are left to those before, and raises the flag when one of
them changed. -/
private theorem folded_of_visits (visits : pass.Visits state functions results)
    (before : List Func) (changed : Bool) :
    let progress := functions.foldl (fun progress func => (pass.advance progress func).value)
      ⟨state, before, changed⟩
    progress.functions = before ++ results.map (·.1) ∧
      progress.changed = (results.any (·.2) || changed) := by
  induction visits generalizing before changed with
  | done => simp
  | @next state func after result functions results ran rest ih =>
    have advanced : (pass.advance ⟨state, before, changed⟩ func).value =
        ⟨after, before ++ [result.1], result.2 || changed⟩ := by
      simp only [advance, Logged.value_bind, ran, Logged.value_pure]
    rw [List.foldl_cons, advanced]
    obtain ⟨left, flag⟩ := ih (before ++ [result.1]) (result.2 || changed)
    refine ⟨left.trans (by simp), flag.trans ?_⟩
    rw [List.any_cons, ← Bool.or_assoc, Bool.or_comm (results.any _)]

/-- Applying a pass leaves what it made of every function. -/
theorem apply_of_visits {program : Program}
    (visits : pass.Visits pass.start program.functions results) :
    (pass.apply program).value =
      ({ program with functions := results.map (·.1) }, results.any (·.2)) := by
  obtain ⟨functions, flag⟩ := folded_of_visits visits [] false
  simp only [apply, Logged.value_bind, Logged.value_foldlM, Logged.value_pure, functions, flag,
    List.nil_append, Bool.or_false]

end Pass

namespace Registry

variable {passes : List Pass} {pass : Pass} {name : String}

/-! ## Running by name -/

/-- So does looping over the functions, whatever the flag was before. -/
private theorem looped_of_visits {state : pass.State} {functions : List Func}
    {results : List (Func × Bool)} (visits : pass.Visits state functions results)
    (changed : Bool) :
    (runFrom name pass state changed functions).value =
      (results.map (·.1), changed || results.any (·.2)) := by
  induction visits generalizing changed with
  | done => simp [runFrom]
  | next ran rest ih =>
    simp only [runFrom, Logged.value_bind, ran, Logged.value_pure, ih, List.map_cons,
      List.any_cons, Bool.or_assoc]

/-- A pass that is found under a name is run as it visits the functions. -/
theorem run_of_visits {registry : Registry} {program : Program} {results : List (Func × Bool)}
    (found : registry.find name = .ok pass)
    (visits : pass.Visits pass.start program.functions results) :
    ∃ step, registry.run name program = .ok step ∧
      step.value = ({ program with functions := results.map (·.1) }, results.any (·.2)) := by
  rw [run, found]
  refine ⟨_, rfl, ?_⟩
  simp only [Logged.value_bind, looped_of_visits visits, Logged.value_pure, Bool.false_or]

/-- The program that is there after a request. A request that fails leaves the old one. -/
def left (registry : Registry) (name : String) (program : Program) : Program :=
  match registry.run name program with
  | .ok step => step.value.1
  | .error _ => program

theorem run_of_unknown {registry : Registry} {program : Program}
    (unknown : registry.find name = .error (.unknownPass name)) :
    registry.run name program = .error (.unknownPass name) ∧
      registry.left name program = program := by
  have refused : registry.run name program = .error (.unknownPass name) := by rw [run, unknown]
  exact ⟨refused, by rw [left, refused]⟩

/-! ## What is registered -/

/-- What registering some passes, one after the other, makes of a registry without passes. -/
def registered (passes : List Pass) : Registry := passes.foldl register []

/-- No pass was registered under the name of this one after it. -/
def IsLatest (passes : List Pass) (pass : Pass) : Prop :=
  ∃ earlier later, passes = earlier ++ pass :: later ∧ ∀ other ∈ later, other.name ≠ pass.name

/-- The passes after which no other one was registered under their name. -/
private def latest : List Pass → List Pass
  | [] => []
  | pass :: rest =>
    if pass.name ∈ rest.map (·.name) then latest rest else pass :: latest rest

/-- Registering keeps of the passes that were there those whose names are not used again. -/
private theorem foldl_register (passes : List Pass) (registry : Registry) :
    passes.foldl register registry =
      registry.filter (fun pass => pass.name ∉ passes.map (·.name)) ++ latest passes := by
  induction passes generalizing registry with
  | nil => simp [latest]
  | cons pass rest ih =>
    have kept : (registry.filter (fun other => other.name ≠ pass.name)).filter
          (fun other => other.name ∉ rest.map (·.name)) =
        registry.filter (fun other => other.name ∉ (pass :: rest).map (·.name)) := by
      rw [List.filter_filter]
      refine List.filter_congr fun other _ => Bool.eq_iff_iff.mpr ?_
      simp only [Bool.and_eq_true, decide_eq_true_eq, List.map_cons, List.mem_cons, not_or]
      exact and_comm
    have added : [pass].filter (fun other => other.name ∉ rest.map (·.name)) ++ latest rest =
        latest (pass :: rest) := by
      by_cases again : pass.name ∈ rest.map (·.name)
      · rw [latest, if_pos again, List.filter_singleton]
        simp [again]
      · rw [latest, if_neg again, List.filter_singleton]
        simp [again]
    calc
      (pass :: rest).foldl register registry
        = (register registry pass).filter (fun other => other.name ∉ rest.map (·.name)) ++
            latest rest := ih _
      _ = _ := by rw [register, List.filter_append, kept, List.append_assoc, added]

private theorem registered_eq (passes : List Pass) : registered passes = latest passes := by
  rw [registered, foldl_register, List.filter_nil, List.nil_append]

private theorem latest_names (passes : List Pass) :
    (latest passes).map (·.name) = (passes.map (·.name)).dedup := by
  induction passes with
  | nil => rfl
  | cons pass rest ih =>
    by_cases again : pass.name ∈ rest.map (·.name)
    · rw [latest, if_pos again, List.map_cons, List.dedup_cons_of_mem again, ih]
    · rw [latest, if_neg again, List.map_cons, List.map_cons, List.dedup_cons_of_notMem again, ih]

private theorem mem_latest_iff : pass ∈ latest passes ↔ IsLatest passes pass := by
  induction passes with
  | nil => simp [latest, IsLatest]
  | cons first rest ih =>
    have split : IsLatest (first :: rest) pass ↔
        pass = first ∧ first.name ∉ rest.map (·.name) ∨ IsLatest rest pass := by
      constructor
      · rintro ⟨earlier, later, same, last⟩
        cases earlier with
        | nil =>
          cases same
          refine .inl ⟨rfl, fun again => ?_⟩
          obtain ⟨other, member, named⟩ := List.mem_map.mp again
          exact last other member named
        | cons _ earlier =>
          cases same
          exact .inr ⟨earlier, later, rfl, last⟩
      · rintro (⟨rfl, fresh⟩ | ⟨earlier, later, rfl, last⟩)
        · exact ⟨[], rest, rfl, fun other member named =>
            fresh (List.mem_map.mpr ⟨other, member, named⟩)⟩
        · exact ⟨first :: earlier, later, rfl, last⟩
    rw [split]
    by_cases again : first.name ∈ rest.map (·.name)
    · rw [latest, if_pos again, ih]
      simp [again]
    · rw [latest, if_neg again, List.mem_cons, ih]
      simp [again]

/-- A name stands for the pass that was registered last under it. -/
private theorem find_registered_iff :
    (registered passes).find name = .ok pass ↔ IsLatest passes pass ∧ pass.name = name := by
  rw [registered_eq, ← mem_latest_iff]
  have distinct : ((latest passes).map (·.name)).Nodup := latest_names passes ▸ List.nodup_dedup _
  unfold find
  cases sought : List.find? (fun pass => pass.name = name) (latest passes) with
  | none =>
    rw [List.find?_eq_none] at sought
    refine ⟨nofun, fun ⟨member, named⟩ => ?_⟩
    exact absurd (by simpa using named) (sought pass member)
  | some found =>
    have named : found.name = name := by simpa using List.find?_some sought
    have member := List.mem_of_find?_eq_some sought
    refine ⟨fun same => ?_, fun ⟨inside, called⟩ => ?_⟩
    · cases same
      exact ⟨member, named⟩
    · exact congrArg _ (List.inj_on_of_nodup_map distinct member inside (named.trans called.symm))

/-- After any registrations every name stands once, in the order of the last registrations
under the names, and for the pass of that registration. A name under which nothing was
registered is refused and the program stays as it is; under any other name the pass visits
every function once and in order, and what is left and whether something changed is what
applying the pass itself gives. -/
theorem registered_passes_run (passes : List Pass) (name : String) (program : Program) :
    ((registered passes).map (·.name) = (passes.map (·.name)).dedup ∧
      ((registered passes).map (·.name)).Nodup ∧
      ∀ pass, pass ∈ registered passes ↔ IsLatest passes pass) ∧
    ((∀ pass ∈ passes, pass.name ≠ name) →
      (registered passes).run name program = .error (.unknownPass name) ∧
        (registered passes).left name program = program) ∧
    ∀ pass, IsLatest passes pass → pass.name = name →
      (registered passes).find name = .ok pass ∧
        ∃ step results, (registered passes).run name program = .ok step ∧
          pass.Visits pass.start program.functions results ∧
          step.value = ({ program with functions := results.map (·.1) }, results.any (·.2)) ∧
          step.value = (pass.apply program).value := by
  refine ⟨?names, fun unknown => run_of_unknown ?unknown, fun pass last named => ?known⟩
  case names =>
    rw [registered_eq, latest_names]
    exact ⟨rfl, List.nodup_dedup _, fun pass => mem_latest_iff⟩
  case unknown =>
    cases found : (registered passes).find name with
    | ok pass =>
      obtain ⟨⟨earlier, later, same, -⟩, named⟩ := find_registered_iff.mp found
      exact absurd named (unknown pass (by simp [same]))
    | error fault =>
      unfold find at found
      split at found
      · cases found
      · rw [← found]
  case known =>
    have found := find_registered_iff.mpr ⟨last, named⟩
    obtain ⟨results, visits⟩ := Pass.visits_exist pass.start program.functions
    obtain ⟨step, ran, value⟩ := run_of_visits found visits
    exact ⟨found, step, results, ran, visits, value,
      value.trans (Pass.apply_of_visits visits).symm⟩

/-- Numbers functions and owns up to changing the first one only. -/
def numbering : Pass where
  name := "number"
  description := "Number functions in order"
  preservesEdges := true
  State := Nat
  start := 0
  run count func :=
    pure (count + 1, { func with name := NameSupply.numbered func.name count }, count = 0)

/-- A pass of the same name that does nothing. -/
def idle : Pass := { numbering with run := fun count func => pure (count, func, false) }

/-- A program of two functions without blocks. -/
def twoFunctions : Program :=
  ⟨[], [⟨"f", .void, [], [], .empty⟩, ⟨"g", .void, [], [], .empty⟩]⟩

/-- Registered again, the name stands for the pass that numbers. It goes on to the second
function with the number that the first one left, and the flag stays up. -/
theorem numbered_in_order :
    (∀ pass ∈ [idle, FusedMultiplyAdd.pass, numbering], pass.name ≠ "licm") ∧
      (registered [idle, FusedMultiplyAdd.pass, numbering]).run "licm" twoFunctions =
        .error (.unknownPass "licm") ∧
    IsLatest [idle, FusedMultiplyAdd.pass, numbering] numbering ∧
      ∃ step, (registered [idle, FusedMultiplyAdd.pass, numbering]).run "number" twoFunctions =
          .ok step ∧
        step.value = (numbering.apply twoFunctions).value ∧
        step.value.1.functions.map (·.name) = ["f.0", "g.1"] ∧ step.value.2 = true := by
  have others : ∀ pass ∈ [idle, FusedMultiplyAdd.pass, numbering], pass.name ≠ "licm" := by
    simp only [List.forall_mem_cons]
    exact ⟨by decide, by decide, by decide, nofun⟩
  have last : IsLatest [idle, FusedMultiplyAdd.pass, numbering] numbering :=
    ⟨[idle, FusedMultiplyAdd.pass], [], rfl, nofun⟩
  obtain ⟨-, unknown, -⟩ := registered_passes_run [idle, FusedMultiplyAdd.pass, numbering] "licm"
    twoFunctions
  obtain ⟨-, -, known⟩ := registered_passes_run [idle, FusedMultiplyAdd.pass, numbering] "number"
    twoFunctions
  obtain ⟨-, step, results, ran, -, -, same⟩ := known numbering last rfl
  refine ⟨others, (unknown others).1, last, step, ran, same, ?_, ?_⟩
  · rw [same]
    rfl
  · rw [same]
    rfl

end Registry

end KernelGuard
