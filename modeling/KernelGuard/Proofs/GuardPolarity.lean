import KernelGuard.Proofs.ConditionMeaning
import KernelGuard.Proofs.GuardLocation
import KernelGuard.Proofs.Simulation

/-! Which way a guard lets a work-item go. Bounds are read off the condition of a branch
alone, while either of its targets may be the way out. A work-item that fails a bound is
sent to the target taken on false: of some guards that is the way out, and of the others
it is the body. -/
namespace KernelGuard

namespace Machine

variable {V M : Type} {machine : Machine V M} {env : Env V} {func : Func}

/-- A value is known and counts as true. -/
def Holds (machine : Machine V M) (env : Env V) (value : Value) : Prop :=
  ∃ known, machine.operand env value = some known ∧ machine.truth known = some true

/-- The conjunctions that a condition leads to hold only together with both operands. -/
def Settled (machine : Machine V M) (env : Env V) (func : Func) (condition : Value) : Prop :=
  ∀ value operand, Condition.Reaches func condition value →
    Condition.LeadsTo func value operand → machine.Holds env value → machine.Holds env operand

/-- From some moment on a run goes to a block through blocks that only pass control on,
and does nothing else on the way. -/
def GoesStraight (func : Func) (run : Nat → Config V M) (n : Nat) (label : Label) : Prop :=
  ∃ (skipped : List Nat) (before : Label),
    (∀ place ∈ skipped, ∃ next, func.PassesOn place next) ∧
    run (n + skipped.length) =
      ⟨.edge before label, (skipped.map func.labelAt).foldl State.enter (run n).state⟩

/-- All that a condition leads to holds where the condition does. -/
theorem Settled.holds (settled : machine.Settled env func condition)
    (reaches : Condition.Reaches func condition value) (holds : machine.Holds env condition) :
    machine.Holds env value := by
  induction reaches with
  | refl => exact holds
  | tail reached leads ih => exact settled _ _ reached leads ih

/-- A conjunction of two values that are none is settled if it holds only with both. -/
theorem settled_of_conjunction
    (joined : Condition.definitionOf? func condition = some (.arith target .and type lhs rhs))
    (apart : ∀ value, value = lhs ∨ value = rhs → ∀ operand, ¬Condition.LeadsTo func value operand)
    (both : machine.Holds env condition → machine.Holds env lhs ∧ machine.Holds env rhs) :
    machine.Settled env func condition := by
  have operands : ∀ {operand}, Condition.LeadsTo func condition operand →
      operand = lhs ∨ operand = rhs := by
    rintro operand ⟨definition, l, r, defined, ⟨_, _, rfl⟩, side⟩
    rw [joined] at defined
    cases defined
    exact side
  have reached : ∀ {value}, Condition.Reaches func condition value →
      value = condition ∨ value = lhs ∨ value = rhs := by
    intro value reaches
    induction reaches with
    | refl => exact .inl rfl
    | tail _ leads ih =>
      rcases ih with rfl | side
      · exact .inr (operands leads)
      · exact absurd leads (apart _ side _)
  intro value operand reaches leads holds
  rcases reached reaches with rfl | side
  · rcases operands leads with rfl | rfl
    · exact (both holds).1
    · exact (both holds).2
  · exact absurd leads (apart value side operand)

/-- A terminator goes to one of the targets that it names, and returns if it names none. -/
theorem leave_cases {control : Control V}
    (left : machine.leave env block terminator = some control) :
    (∃ target ∈ terminator.targets, control = .edge block target) ∨
      (terminator.targets = [] ∧ ∃ value, control = .returned value) := by
  cases terminator with
  | jump target =>
    cases left
    exact .inl ⟨target, by simp [Instr.targets], rfl⟩
  | branch type condition onTrue onFalse =>
    simp only [leave, Option.bind_eq_bind, Option.bind_eq_some_iff, Option.pure_def,
      Option.some.injEq] at left
    obtain ⟨value, -, taken, -, rfl⟩ := left
    refine .inl ⟨_, ?_, rfl⟩
    cases taken <;> simp [Instr.targets]
  | ret operand =>
    refine .inr ⟨rfl, ?_⟩
    cases operand with
    | none =>
      cases left
      exact ⟨none, rfl⟩
    | some operand =>
      simp only [leave, Option.bind_eq_bind, Option.bind_eq_some_iff, Option.pure_def,
        Option.some.injEq] at left
      obtain ⟨value, -, rfl⟩ := left
      exact ⟨some value, rfl⟩
  | arith | compare | convert | load | store | elementPtr | call | phi => cases left

/-- A branch whose condition does not hold goes to its second target. -/
theorem leave_onFalse
    (left : machine.leave env block (.branch type condition onTrue onFalse) =
      some (.edge source target))
    (fails : ¬machine.Holds env condition) : target = onFalse := by
  simp only [leave, Option.bind_eq_bind, Option.bind_eq_some_iff, Option.pure_def,
    Option.some.injEq, Control.edge.injEq] at left
  obtain ⟨value, known, taken, truth, -, rfl⟩ := left
  cases taken with
  | true => exact absurd ⟨value, known, truth⟩ fails
  | false => rfl

/-- A run that stands on an edge has just left the block at the source of the edge. -/
theorem left_block {config next : Config V M} (advanced : machine.advance func config = some next)
    (stands : next.control = .edge source target) :
    ∃ block ∈ func.blocks, block.label = source ∧
      ∃ terminator, block.terminator = some terminator ∧
        machine.leave next.state.env source terminator = some (.edge source target) := by
  rcases advance_cases advanced with ⟨from', block, member, ran⟩ | ⟨⟨value, returned⟩, rfl⟩
  · obtain ⟨values, -, final, -, terminator, ends, control, left, rfl⟩ :=
      runBlock_eq_some_iff.mp ran
    cases stands
    rcases leave_cases left with ⟨_, -, same⟩ | ⟨-, _, same⟩
    · cases same
      exact ⟨block, member, rfl, terminator, ends, left⟩
    · cases same
  · rw [returned] at stands
    cases stands

/-- A block that only passes control on is entered and left, and nothing else happens. -/
theorem advance_passes {config next : Config V M} (linked : func.IsLinked)
    (passes : func.PassesOn place after) (stands : config.control = .edge source (func.labelAt place))
    (advanced : machine.advance func config = some next) :
    next = ⟨.edge (func.labelAt place) (func.labelAt after),
      config.state.enter (func.labelAt place)⟩ := by
  obtain ⟨block, here, size, -, only⟩ := passes
  have member := List.mem_of_getElem? here
  obtain ⟨terminator, ends⟩ := linked.ended block member
  have bare : block.phis = [] ∧ block.instrs = [] := by
    have none' : block.body = [] := by simpa [Block.size, Block.code, ends] using size
    simpa [Block.body] using none'
  rw [Func.labelAt_eq here] at stands ⊢
  simp only [advance, stands, linked.find_block member, Option.bind_some] at advanced
  obtain ⟨values, taken, final, steps, _, ends', control, left, rfl⟩ :=
    runBlock_eq_some_iff.mp advanced
  cases ends.symm.trans ends'
  simp only [bare, phiValues, List.mapM_nil, List.foldlM_nil, Option.pure_def,
    Option.some.injEq] at taken steps
  subst taken steps
  -- the only successor is what the terminator names, so control cannot return from here
  have goes : ∀ label ∈ terminator.targets, label = func.labelAt after := by
    intro label named
    obtain ⟨target, found, _, here', follows⟩ :=
      linked.successor_of_target here (by simpa [Block.targets, ends] using named)
    cases here.symm.trans here'
    rw [only, List.mem_singleton] at follows
    subst follows
    obtain ⟨there, at', rfl⟩ := Edge.block_of_placeOf? found
    exact (Func.labelAt_eq at').symm
  rcases leave_cases left with ⟨label, named, rfl⟩ | ⟨none', -⟩
  · rw [goes label named, State.defineAll_nil]
  · obtain ⟨_, _, here', -, named⟩ := (linked.named place after).mp ⟨block, here, by simp [only]⟩
    cases here.symm.trans here'
    simp [Block.targets, ends, none'] at named

/-- A run that comes to blocks that only pass control on goes straight to the last one. -/
theorem run_skips {start : Config V M} {run : Nat → Config V M} (linked : func.IsLinked)
    (isRun : machine.IsRun func start run) (skips : func.Skips place skipped last)
    (stands : (run n).control = .edge source (func.labelAt place)) :
    GoesStraight func run n (func.labelAt last) := by
  induction skips generalizing n source with
  | arrive => exact ⟨[], source, by simp, by rw [← stands]; rfl⟩
  | @pass place _ _ _ passes rest ih =>
    have entered := advance_passes linked passes stands (isRun.advances n)
    obtain ⟨skipped, before, passing, arrived⟩ := ih (n := n + 1) (by rw [entered])
    refine ⟨place :: skipped, before, List.forall_mem_cons.mpr ⟨⟨_, passes⟩, passing⟩, ?_⟩
    rw [List.length_cons, Nat.add_comm _ 1, ← Nat.add_assoc, arrived, entered]
    rfl

end Machine

namespace Func

/-- The target that the branch of a guard takes on false stands for the guard's exit. -/
def LeavesOnFalse (func : Func) (region : Region) (guard : EarlyExit) : Prop :=
  ∃ place condition onTrue onFalse next last,
    func.IsFirstBranch region place condition onTrue onFalse ∧
      func.place? onFalse = some next ∧ func.IsRepresentative next last ∧
      guard.exit = func.labelAt last

variable {func : Func} {region : Region} {guard : EarlyExit}

theorem LeadsOut.unique (out : func.LeadsOut place target exit)
    (other : func.LeadsOut place target exit') : exit = exit' := by
  obtain ⟨next, found, represents, -⟩ := out
  obtain ⟨_, found', represents', -⟩ := other
  cases found.symm.trans found'
  exact (isRepresentative_iff.mp represents).trans (isRepresentative_iff.mp represents').symm

/-- A guard is the first branch of its region, and its exit is what a target leads out to. -/
private theorem guard_parts (found : func.IsGuard region (some guard)) :
    ∃ place onTrue onFalse exit,
      func.IsFirstBranch region place guard.condition onTrue onFalse ∧
      guard.block = func.labelAt place ∧ guard.exit = func.labelAt exit ∧
      (func.LeadsOut place onTrue exit ∨
        (∀ exit, ¬func.LeadsOut place onTrue exit) ∧ func.LeadsOut place onFalse exit) := by
  cases found with
  | onTrue branch out => exact ⟨_, _, _, _, branch, rfl, rfl, .inl out⟩
  | onFalse branch true' out => exact ⟨_, _, _, _, branch, rfl, rfl, .inr ⟨true', out⟩⟩

/-- A guard leaves on false unless its target on true leads out and the other one does
not lead to the same place. -/
private theorem leavesOnFalse_iff (linked : func.IsLinked)
    (found : func.IsGuard region (some guard)) :
    func.LeavesOnFalse region guard ↔ ∃ place onTrue onFalse,
      func.IsFirstBranch region place guard.condition onTrue onFalse ∧
        ∀ exit, func.LeadsOut place onTrue exit → func.LeadsOut place onFalse exit := by
  obtain ⟨place, onTrue, onFalse, exit, branch, -, leaves, out⟩ := guard_parts found
  constructor
  · rintro ⟨_, _, _, _, next, last, branch', target, represents, ends⟩
    obtain ⟨rfl, -, rfl, rfl⟩ := branch.unique branch'
    refine ⟨place, onTrue, onFalse, branch, fun other out' => ?_⟩
    rcases out with out | ⟨none', -⟩
    · obtain rfl := out.unique out'
      obtain ⟨_, found', represents', every⟩ := out
      obtain rfl := linked.eq_of_labelAt_eq (represents.inside linked target)
        (represents'.inside linked found') (ends.symm.trans leaves)
      exact ⟨next, target, represents, every⟩
    · exact absurd out' (none' other)
  · rintro ⟨_, _, _, branch', both⟩
    obtain ⟨rfl, -, rfl, rfl⟩ := branch.unique branch'
    obtain ⟨next, target, represents, -⟩ : func.LeadsOut place onFalse exit :=
      out.elim (both exit) (·.2)
    exact ⟨place, _, onTrue, onFalse, next, exit, branch, target, represents, leaves⟩

/-- The branch of a guard is that of the block that a run leaves at the guard. -/
private theorem branch_of_guard_left {V M : Type} {machine : Machine V M} {config next : Config V M}
    (linked : func.IsLinked) (branch : func.IsFirstBranch region place condition onTrue onFalse)
    (advanced : machine.advance func config = some next)
    (stands : next.control = .edge (func.labelAt place) target) :
    ∃ type, machine.leave next.state.env (func.labelAt place)
      (.branch type condition onTrue onFalse) = some (.edge (func.labelAt place) target) := by
  obtain ⟨-, -, -, ⟨block, type, here, ends⟩, -⟩ := branch
  obtain ⟨other, member, labelled, terminator, ends', left⟩ :=
    Machine.left_block advanced stands
  have same : other = block := by
    have found := linked.find_block member
    rw [labelled, labelAt_eq here, linked.find_block (List.mem_of_getElem? here)] at found
    exact (Option.some.inj found).symm
  rw [same, ends] at ends'
  cases ends'
  exact ⟨type, left⟩

/-- A work-item for which a kept comparison does not hold goes from the guard to its
target on false. Some guards leave there, and then it comes to the exit through blocks
that only pass control on. The others have a target on true that leads out, and the
target on false leads elsewhere. -/
theorem failed_bound_goes_to_false_target {function : Module.Function} {symbols : IndexSymbols}
    (built : ofModule function = .ok func) :
    let analysis := (Analysis.ofRegion func region (func.domTree .backward).dominates symbols).value
    ∀ guard, analysis.earlyExit = some guard →
      (func.LeavesOnFalse region guard ↔ ∃ place onTrue onFalse,
        func.IsFirstBranch region place guard.condition onTrue onFalse ∧
          ∀ exit, func.LeadsOut place onTrue exit → func.LeadsOut place onFalse exit) ∧
      ∀ (V M : Type) (machine : Machine V M) start run, machine.IsRun func start run →
        ∀ n target, (run (n + 1)).control = .edge guard.block target →
        machine.Settled (run (n + 1)).state.env func guard.condition →
        ∀ dimension fact, analysis.survey.facts.get dimension = some fact →
        ¬machine.Holds (run (n + 1)).state.env (.temp fact.compare) →
        (∃ place onTrue, func.IsFirstBranch region place guard.condition onTrue target) ∧
        (func.LeavesOnFalse region guard → Machine.GoesStraight func run (n + 1) guard.exit) := by
  intro analysis guard guarded
  have linked := linked_ofModule built
  have located : (EarlyExit.locate func region (func.domTree .backward).dominates).value =
      some guard := by
    cases located : (EarlyExit.locate func region (func.domTree .backward).dominates).value with
    | none => simp [analysis, Analysis.ofRegion_unlocated located] at guarded
    | some exit => simpa [analysis, Analysis.ofRegion_located located] using guarded
  have found := (locate_eq_iff linked).mp located
  refine ⟨leavesOnFalse_iff linked found, ?_⟩
  intro V M machine start run isRun n target stands settled dimension fact kept fails
  obtain ⟨place, onTrue, onFalse, exit, branch, block, -, -⟩ := guard_parts found
  rw [block] at stands
  have failed : ¬machine.Holds (run (n + 1)).state.env guard.condition := by
    intro holds
    obtain ⟨-, ⟨_, located', reaches⟩, -⟩ := Condition.kept_fact_bounds kept
    cases located.symm.trans located'
    exact fails (settled.holds reaches holds)
  obtain ⟨type, left⟩ := branch_of_guard_left linked branch (isRun.advances n) stands
  obtain rfl := Machine.leave_onFalse left failed
  refine ⟨⟨place, onTrue, branch⟩, ?_⟩
  rintro ⟨_, _, _, _, next, last, branch', known, ⟨skipped, skips, -⟩, leaves⟩
  obtain ⟨-, -, -, rfl⟩ := branch.unique branch'
  obtain ⟨there, at', rfl⟩ := Edge.block_of_placeOf? known
  exact leaves ▸ Machine.run_skips linked isRun skips (stands.trans (by rw [labelAt_eq at']))

/-- A kernel over a plane whose guard has its targets left open. It does its work in
the body, and a block of its own leads around it. -/
def guardedFunction (onTrue onFalse : Label) : Module.Function where
  name := "guarded"
  returnType := .void
  params := [.ofLocal "n" .i32, .ofLocal "m" .i32]
  blocks := [
    { label := "entry", phis := [],
      instrs := [
        .load (.ofLocal "x" .i32) .i32 (.temp (.ofGlobal "_local_id_x")),
        .load (.ofLocal "y" .i32) .i32 (.temp (.ofGlobal "_local_id_y")),
        .arith (.ofLocal "i" .i32) .add .i32 (.temp (.ofLocal "x" .i32)) (.int 0),
        .arith (.ofLocal "j" .i32) .add .i32 (.int 4) (.temp (.ofLocal "y" .i32)),
        .compare (.ofLocal "a" .i1) .icmp .ult .i32 (.temp (.ofLocal "i" .i32))
          (.temp (.ofLocal "n" .i32)),
        .compare (.ofLocal "b" .i1) .icmp .ult .i32 (.temp (.ofLocal "j" .i32))
          (.temp (.ofLocal "m" .i32)),
        .arith (.ofLocal "c" .i1) .and .i1 (.temp (.ofLocal "a" .i1)) (.temp (.ofLocal "b" .i1))],
      terminator := .branch .i1 (.temp (.ofLocal "c" .i1)) onTrue onFalse },
    { label := "body", phis := [], instrs := [.call none .void "work" []],
      terminator := .jump "exit" },
    { label := "skip", phis := [], instrs := [], terminator := .jump "exit" },
    { label := "exit", phis := [], instrs := [], terminator := .ret none }]

/-- The guard of the kernel, whichever way around its targets are. -/
def planeGuard : EarlyExit := ⟨"entry", "exit", .temp (.ofLocal "c" .i1)⟩

/-- What is recorded about the second dimension of the kernel. -/
def planeFact : BoundFact :=
  ⟨.y, .ofLocal "b" .i1, .temp (.ofLocal "m" .i32), "%b = icmp ult i32 %j, %m"⟩

/-- A work-item that the second bound of the kernel rules out. -/
def outsideStart (func : Func) : Config Int Unit := func.start [100, 5] (fun _ => some 0) ()

/-- With the way around it as the target on false, the guard lets a work-item outside the
bounds go straight to the exit. -/
theorem outside_goes_straight : ∃ func run, ofModule (guardedFunction "body" "skip") = .ok func ∧
    func.LeavesOnFalse (Region.whole func) planeGuard ∧
    integerMachine.IsRun func func.outsideStart run ∧
    ¬integerMachine.Holds (run 1).state.env (.temp planeFact.compare) ∧
    Machine.GoesStraight func run 1 "exit" := by
  obtain ⟨func, built, located, leaves, kept, joined, compared, ends, left⟩ : ∃ func,
      ofModule (guardedFunction "body" "skip") = .ok func ∧
      (EarlyExit.locate func (Region.whole func) (func.domTree .backward).dominates).value =
        some planeGuard ∧
      func.LeavesOnFalse (Region.whole func) planeGuard ∧
      (Survey.ofFindings (Condition.decompose func .standard planeGuard.condition)).value.facts.get
        .y = some planeFact ∧
      Condition.definitionOf? func planeGuard.condition = some (.arith (.ofLocal "c" .i1) .and .i1
        (.temp (.ofLocal "a" .i1)) (.temp (.ofLocal "b" .i1))) ∧
      (∀ value, value = .temp (.ofLocal "a" .i1) ∨ value = .temp (.ofLocal "b" .i1) →
        ∃ target kind predicate type lhs rhs, Condition.definitionOf? func value =
          some (.compare target kind predicate type lhs rhs)) ∧
      (integerMachine.runFor func func.outsideStart 3).map (·.control) = some (.returned none) ∧
      (integerMachine.advance func func.outsideStart).map (fun config =>
        (config.control, config.state.env ⟨"b", false⟩, config.state.env ⟨"c", false⟩)) =
          some (.edge "entry" "skip", some 0, some 0) := by
    refine ⟨_, rfl, by cbv, ?leaves, by cbv, rfl, ?compared, by decide +kernel,
      by decide +kernel⟩
    case leaves =>
      exact ⟨0, _, _, _, 2, 3, ⟨[], [1, 2, 3], rfl, ⟨_, _, rfl, rfl⟩, by simp⟩, rfl,
        isRepresentative_iff.mpr (by cbv), rfl⟩
    case compared =>
      rintro value (rfl | rfl) <;> exact ⟨_, _, _, _, _, _, rfl⟩
  obtain ⟨final, finished, returned⟩ := Option.map_eq_some_iff.mp ends
  obtain ⟨run, isRun, -, -⟩ := Machine.run_of_return finished returned
  have first := isRun.advances 0
  rw [isRun.starts] at first
  simp only [first, Option.map_some, Option.some.injEq, Prod.mk.injEq] at left
  obtain ⟨stands, second, whole⟩ := left
  have zero : ∀ {temp : Temp}, (run 1).state.env temp.name = some 0 →
      ¬integerMachine.Holds (run 1).state.env (.temp temp) := by
    rintro temp value ⟨known, read, truth⟩
    obtain rfl := Option.some.inj (value.symm.trans read)
    cases truth
  have settled : integerMachine.Settled (run 1).state.env func planeGuard.condition := by
    refine Machine.settled_of_conjunction joined ?_ (fun holds => absurd holds (zero whole))
    rintro value side operand ⟨definition, lhs, rhs, defined, ⟨_, _, rfl⟩, -⟩
    obtain ⟨_, _, _, _, _, _, compares⟩ := compared value side
    rw [compares] at defined
    cases defined
  have analysed : (Analysis.ofRegion func (Region.whole func) (func.domTree .backward).dominates
      .standard).value = _ := Analysis.ofRegion_located located
  obtain ⟨-, goes⟩ := failed_bound_goes_to_false_target built planeGuard (by rw [analysed])
  obtain ⟨-, straight⟩ := goes _ _ integerMachine _ run isRun 0 "skip" stands settled .y planeFact
    (by rw [analysed]; exact kept) (zero second)
  exact ⟨func, run, built, leaves, isRun, zero second, straight leaves⟩

/-- With the way around it as the target on true, the guard is understood all the same
and reports the same bounds, but a work-item outside them does the work of the body. -/
theorem outside_does_work : ∃ func run, ofModule (guardedFunction "skip" "body") = .ok func ∧
    let analysis := (Analysis.ofRegion func (Region.whole func) (func.domTree .backward).dominates
      .standard).value
    analysis.status = .understood ∧ analysis.earlyExit = some planeGuard ∧
    planeFact ∈ analysis.boundFacts ∧ ¬func.LeavesOnFalse (Region.whole func) planeGuard ∧
    integerMachine.IsRun func func.outsideStart run ∧
    ¬integerMachine.Holds (run 1).state.env (.temp planeFact.compare) ∧
    (run 3).state.blocks = ["entry", "body", "exit"] ∧
    (run 3).state.effects = [.invoke .void "work" []] := by
  obtain ⟨func, built, located, branch, goes, represents, known, ends, left⟩ : ∃ func,
      ofModule (guardedFunction "skip" "body") = .ok func ∧
      (EarlyExit.locate func (Region.whole func) (func.domTree .backward).dominates).value =
        some planeGuard ∧
      func.IsFirstBranch (Region.whole func) 0 planeGuard.condition "skip" "body" ∧
      func.place? "body" = some 1 ∧ func.labelAt (EarlyExit.representative func 1) = "body" ∧
      (let survey := (Survey.ofFindings
          (Condition.decompose func .standard planeGuard.condition)).value
        let analysis : Analysis := ⟨some planeGuard, survey, .replicate false⟩
        analysis.status = .understood ∧ planeFact ∈ analysis.boundFacts) ∧
      (integerMachine.runFor func func.outsideStart 3).map (fun config =>
        (config.control, config.state.blocks, config.state.effects)) =
          some (.returned none, ["entry", "body", "exit"], [.invoke .void "work" []]) ∧
      (integerMachine.advance func func.outsideStart).map (fun config =>
        config.state.env planeFact.compare.name) = some (some 0) := by
    refine ⟨_, rfl, by cbv, ⟨[], [1, 2, 3], rfl, ⟨_, _, rfl, rfl⟩, by simp⟩, rfl, by cbv,
      by decide +kernel, by decide +kernel, by decide +kernel⟩
  obtain ⟨final, finished, seen⟩ := Option.map_eq_some_iff.mp ends
  simp only [Prod.mk.injEq] at seen
  obtain ⟨returned, blocks, effects⟩ := seen
  obtain ⟨run, isRun, rfl, -⟩ := Machine.run_of_return finished returned
  have first := isRun.advances 0
  rw [isRun.starts] at first
  rw [first, Option.map_some, Option.some.injEq] at left
  refine ⟨func, run, built, ?_⟩
  intro analysis
  rw [show analysis = _ from Analysis.ofRegion_located located]
  refine ⟨known.1, rfl, known.2, ?_, isRun, ?_, blocks, effects⟩
  · rintro ⟨_, _, _, _, next, last, branch', target, stands, leaves⟩
    obtain ⟨-, -, -, rfl⟩ := branch.unique branch'
    cases goes.symm.trans target
    obtain rfl := isRepresentative_iff.mp stands
    exact absurd (leaves.trans represents) (by decide)
  · rintro ⟨value, read, truth⟩
    obtain rfl := Option.some.inj (left.symm.trans read)
    cases truth

end Func

end KernelGuard
