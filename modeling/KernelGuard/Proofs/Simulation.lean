import KernelGuard.Proofs.DefinitionErasure
import KernelGuard.Proofs.Execution
import Mathlib.Tactic.Choose

/-! How two runs are kept in step. What an instruction does depends on the values
of its operands alone, so two environments in which those agree are as good as
one, and a relation that every block preserves holds all along a run. -/
namespace KernelGuard.Machine

variable {V M : Type} {machine : Machine V M} {env env' : Env V} {f : Value → Value}

theorem arguments_nil : machine.arguments env [] = some [] := rfl

theorem arguments_cons (arg : Ty × Value) (rest : List (Ty × Value)) :
    machine.arguments env (arg :: rest) =
      (machine.operand env arg.2).bind fun value =>
        (machine.arguments env rest).map ((arg.1, value) :: ·) := by
  rw [arguments, List.mapM_cons]
  cases machine.operand env arg.2 with
  | none => rfl
  | some value => exact Option.map_eq_bind.symm

/-- Every argument of a call has a value. -/
theorem arguments_length (read : machine.arguments env args = some values) :
    values.length = args.length := by
  induction args generalizing values with
  | nil =>
    cases read
    rfl
  | cons arg rest ih =>
    simp only [arguments_cons, Option.bind_eq_some_iff, Option.map_eq_some_iff] at read
    obtain ⟨value, -, more, others, rfl⟩ := read
    simp [ih others]

private theorem arguments_mapped
    (agree : ∀ value v, machine.operand env value = some v →
      machine.operand env' (f value) = some v)
    (read : machine.arguments env args = some values) :
    machine.arguments env' (args.map fun arg => (arg.1, f arg.2)) = some values := by
  induction args generalizing values with
  | nil => exact read
  | cons arg rest ih =>
    simp only [arguments_cons, Option.bind_eq_some_iff, Option.map_eq_some_iff] at read
    obtain ⟨value, first, more, others, rfl⟩ := read
    simp [arguments_cons, agree _ _ first, ih others]

theorem phiValue_mapped
    (agree : ∀ value v, machine.operand env value = some v →
      machine.operand env' (f value) = some v)
    (read : machine.phiValue env source phi = some v) :
    machine.phiValue env' source (phi.mapOperands f) = some v := by
  simp only [phiValue, Option.bind_eq_bind, Option.bind_eq_some_iff] at read
  obtain ⟨label, edge, chosen, found, value⟩ := read
  have mapped : (phi.mapOperands f).sources.find? (·.2 = label) = some (f chosen.1, chosen.2) := by
    rw [Phi.mapOperands, List.find?_map]
    exact congrArg (Option.map _) found
  simp only [phiValue, Option.bind_eq_bind, edge, mapped, Option.bind_some, agree _ _ value]

private theorem phiValues_cons (phi : Phi) (rest : List Phi) :
    machine.phiValues env source (phi :: rest) =
      (machine.phiValue env source phi).bind fun value =>
        (machine.phiValues env source rest).map ((phi.target.name, value) :: ·) := by
  rw [phiValues, List.mapM_cons]
  cases machine.phiValue env source phi with
  | none => rfl
  | some value => exact Option.map_eq_bind.symm

/-- The phis of a block take the same values wherever their operands have the same
values. -/
theorem phiValues_mapped
    (agree : ∀ value v, machine.operand env value = some v →
      machine.operand env' (f value) = some v)
    (read : machine.phiValues env source phis = some values) :
    machine.phiValues env' source (phis.map (Phi.mapOperands f)) = some values := by
  induction phis generalizing values with
  | nil => exact read
  | cons phi rest ih =>
    simp only [phiValues_cons, Option.bind_eq_some_iff, Option.map_eq_some_iff] at read
    obtain ⟨value, first, more, others, rfl⟩ := read
    rw [List.map_cons, phiValues_cons, phiValue_mapped agree first, ih others]
    rfl

/-- The phis of a block write their targets. -/
theorem phiValues_names (read : machine.phiValues env source phis = some values) :
    values.map (·.1) = phis.map (·.target.name) := by
  induction phis generalizing values with
  | nil =>
    cases read
    rfl
  | cons phi rest ih =>
    simp only [phiValues_cons, Option.bind_eq_some_iff, Option.map_eq_some_iff] at read
    obtain ⟨value, -, more, others, rfl⟩ := read
    simp [ih others]

/-- An instruction does the same wherever its operands have the same values. -/
theorem outcome_mapped
    (agree : ∀ value v, machine.operand env value = some v →
      machine.operand env' (f value) = some v)
    (ran : machine.outcome source env memory instr = some result) :
    machine.outcome source env' memory (instr.mapOperands f) = some result := by
  cases instr with
  | arith target op type lhs rhs =>
    simp only [Machine.outcome, Option.bind_eq_bind, Option.bind_eq_some_iff] at ran
    obtain ⟨l, left, r, right, done⟩ := ran
    simpa [Machine.outcome, Instr.mapOperands, agree _ _ left, agree _ _ right,
      Option.bind_eq_some_iff] using done
  | compare target kind predicate type lhs rhs =>
    simp only [Machine.outcome, Option.bind_eq_bind, Option.bind_eq_some_iff] at ran
    obtain ⟨l, left, r, right, done⟩ := ran
    simpa [Machine.outcome, Instr.mapOperands, agree _ _ left, agree _ _ right,
      Option.bind_eq_some_iff] using done
  | convert target op type operand widened =>
    simp only [Machine.outcome, Option.bind_eq_bind, Option.bind_eq_some_iff] at ran
    obtain ⟨v, read, done⟩ := ran
    simpa [Machine.outcome, Instr.mapOperands, agree _ _ read, Option.bind_eq_some_iff] using done
  | load target type address =>
    simp only [Machine.outcome, Option.bind_eq_bind, Option.bind_eq_some_iff] at ran
    obtain ⟨a, read, done⟩ := ran
    simpa [Machine.outcome, Instr.mapOperands, agree _ _ read, Option.bind_eq_some_iff] using done
  | store value address =>
    simp only [Machine.outcome, Option.bind_eq_bind, Option.bind_eq_some_iff] at ran
    obtain ⟨v, read, a, place, done⟩ := ran
    simpa [Machine.outcome, Instr.mapOperands, agree _ _ read, agree _ _ place,
      Option.bind_eq_some_iff] using done
  | elementPtr target type address offset =>
    simp only [Machine.outcome, Option.bind_eq_bind, Option.bind_eq_some_iff] at ran
    obtain ⟨a, place, o, read, done⟩ := ran
    simpa [Machine.outcome, Instr.mapOperands, agree _ _ read, agree _ _ place,
      Option.bind_eq_some_iff] using done
  | call target type callee args =>
    cases target with
    | none =>
      simp only [Machine.outcome, Option.bind_eq_bind, Option.bind_eq_some_iff] at ran
      obtain ⟨values, read, done⟩ := ran
      simpa [Machine.outcome, Instr.mapOperands, arguments_mapped agree read,
        Option.bind_eq_some_iff] using done
    | some target =>
      simp only [Machine.outcome, Option.bind_eq_bind, Option.bind_eq_some_iff] at ran
      obtain ⟨values, read, done⟩ := ran
      simpa [Machine.outcome, Instr.mapOperands, arguments_mapped agree read,
        Option.bind_eq_some_iff] using done
  | phi phi =>
    simp only [Machine.outcome, Option.bind_eq_bind, Option.bind_eq_some_iff] at ran
    obtain ⟨v, read, done⟩ := ran
    have value := phiValue_mapped agree read
    simp only [Machine.outcome, Instr.mapOperands, value]
    exact done
  | jump | branch | ret => cases ran

/-- A terminator goes the same way wherever its operand has the same value. -/
theorem leave_mapped
    (agree : ∀ value v, machine.operand env value = some v →
      machine.operand env' (f value) = some v)
    (left : machine.leave env block instr = some next) :
    machine.leave env' block (instr.mapOperands f) = some next := by
  cases instr with
  | jump target => exact left
  | branch type condition onTrue onFalse =>
    simp only [leave, Option.bind_eq_bind, Option.bind_eq_some_iff] at left
    obtain ⟨value, read, done⟩ := left
    simpa [leave, Instr.mapOperands, agree _ _ read, Option.bind_eq_some_iff] using done
  | ret value =>
    cases value with
    | none => exact left
    | some operand =>
      simp only [leave, Option.bind_eq_bind, Option.bind_eq_some_iff] at left
      obtain ⟨value, read, done⟩ := left
      simpa [leave, Instr.mapOperands, agree _ _ read] using done
  | arith | compare | convert | load | store | elementPtr | call | phi => cases left

/-- An instruction writes its target and nothing else; what is seen of it is a store, a call
made for its effect, or the call with a result that the instruction is. -/
theorem outcome_cases (ran : machine.outcome source env memory instr = some result) :
    result.written.map (·.1) = instr.target?.map (·.name) ∧
      (result.seen = none ∨ (∃ value address, result.seen = some (.store value address)) ∨
        (∃ type callee values, result.seen = some (.invoke type callee values)) ∨
        ∃ target type callee args values, instr = .call (some target) type callee args ∧
          machine.arguments env args = some values ∧
          result.seen = some (.call type callee values)) := by
  cases instr with
  | jump | branch | ret => cases ran
  | call target type callee args =>
    cases target with
    | none =>
      simp only [Machine.outcome, Option.bind_eq_bind, Option.bind_eq_some_iff,
        Option.pure_def, Option.some.injEq] at ran
      obtain ⟨values, _, _, _, rfl⟩ := ran
      exact ⟨rfl, .inr (.inr (.inl ⟨type, callee, values, rfl⟩))⟩
    | some target =>
      simp only [Machine.outcome, Option.bind_eq_bind, Option.bind_eq_some_iff,
        Option.pure_def, Option.some.injEq] at ran
      obtain ⟨values, read, _, _, rfl⟩ := ran
      exact ⟨rfl, .inr (.inr (.inr ⟨target, type, callee, args, values, rfl, read, rfl⟩))⟩
  | store =>
    simp only [Machine.outcome, Option.bind_eq_bind, Option.bind_eq_some_iff,
      Option.pure_def, Option.some.injEq] at ran
    obtain ⟨value, _, address, _, _, _, rfl⟩ := ran
    exact ⟨rfl, .inr (.inl ⟨value, address, rfl⟩)⟩
  | convert | load =>
    simp only [Machine.outcome, Option.bind_eq_bind, Option.bind_eq_some_iff,
      Option.pure_def, Option.some.injEq] at ran
    obtain ⟨_, _, _, _, rfl⟩ := ran
    exact ⟨rfl, .inl rfl⟩
  | phi =>
    simp only [Machine.outcome, Option.bind_eq_bind, Option.bind_eq_some_iff,
      Option.pure_def, Option.some.injEq] at ran
    obtain ⟨_, _, rfl⟩ := ran
    exact ⟨rfl, .inl rfl⟩
  | arith | compare | elementPtr =>
    simp only [Machine.outcome, Option.bind_eq_bind, Option.bind_eq_some_iff,
      Option.pure_def, Option.some.injEq] at ran
    obtain ⟨_, _, _, _, _, _, rfl⟩ := ran
    exact ⟨rfl, .inl rfl⟩

/-- What is seen of an instruction is an effect. -/
theorem outcome_shape (ran : machine.outcome source env memory instr = some result) :
    result.written.map (·.1) = instr.target?.map (·.name) ∧
      ∀ event ∈ result.seen, event.isEffect = true := by
  obtain ⟨target, seen⟩ := outcome_cases ran
  refine ⟨target, fun event member => ?_⟩
  rcases seen with none | ⟨_, _, store⟩ | ⟨_, _, _, invoke⟩ | ⟨_, _, _, _, _, -, -, call⟩
  · simp [none] at member
  · cases store ▸ member
    rfl
  · cases invoke ▸ member
    rfl
  · cases call ▸ member
    rfl

/-- A call with a result is seen only where such an instruction is. -/
theorem outcome_call_seen (ran : machine.outcome source env memory instr = some result)
    (seen : result.seen = some (.call type callee values)) :
    ∃ target args, instr = .call (some target) type callee args ∧
      machine.arguments env args = some values := by
  rcases (outcome_cases ran).2 with none | ⟨_, _, store⟩ | ⟨_, _, _, invoke⟩ |
    ⟨target, _, _, args, _, same, read, call⟩
  · cases none.symm.trans seen
  · cases store.symm.trans seen
  · cases invoke.symm.trans seen
  · cases call.symm.trans seen
    exact ⟨target, args, same, read⟩

/-- A relation that holds at the start and that every move of a run can be
answered within holds all along the run. -/
theorem run_followed {func func' : Func} {start start' : Config V M} {run : Nat → Config V M}
    (Related : Config V M → Config V M → Prop) (isRun : machine.IsRun func start run)
    (related : Related start start')
    (answered : ∀ n config, Related (run n) config →
      ∃ next, machine.advance func' config = some next ∧ Related (run (n + 1)) next) :
    ∃ run', machine.IsRun func' start' run' ∧ ∀ n, Related (run n) (run' n) := by
  choose next moves follows using answered
  let follow : (n : Nat) → { config // Related (run n) config } := fun n =>
    Nat.rec ⟨start', isRun.starts ▸ related⟩
      (fun n config => ⟨next n config.1 config.2, follows n config.1 config.2⟩) n
  exact ⟨fun n => (follow n).1, ⟨rfl, fun n => moves n _ (follow n).2⟩, fun n => (follow n).2⟩

end KernelGuard.Machine

namespace KernelGuard

/-- An effect writes no temporary. -/
theorem Event.effect_writes_nothing {event : Event V} (effect : event.isEffect = true) :
    event.writes name = false := by
  cases event with
  | store | call | invoke => rfl
  | enter | define => cases effect

end KernelGuard

namespace KernelGuard.State

variable {V M : Type} {machine : Machine V M}

@[simp] theorem define_memory (state : State V M) (name : Name) (value : V) :
    (state.define name value).memory = state.memory := rfl

@[simp] theorem define_history (state : State V M) (name : Name) (value : V) :
    (state.define name value).history = state.history ++ [.define name value] := rfl

@[simp] theorem defineAll_nil (state : State V M) : state.defineAll [] = state := rfl

@[simp] theorem defineAll_cons (state : State V M) (write : Name × V)
    (writes : List (Name × V)) :
    state.defineAll (write :: writes) = (state.define write.1 write.2).defineAll writes := rfl

/-- An instruction without effects only writes. -/
theorem after_written (state : State V M) (name : Name) (value : V) :
    state.after ⟨some (name, value), state.memory, none⟩ = state.define name value := by
  simp [after]

theorem blocks_define (state : State V M) (name : Name) (value : V) :
    (state.define name value).blocks = state.blocks := by
  simp [blocks, Event.block?]

theorem effects_define (state : State V M) (name : Name) (value : V) :
    (state.define name value).effects = state.effects := by
  simp [effects, List.filter_append, Event.isEffect]

/-- What has happened stays on record while temporaries are written. -/
theorem history_defineAll (state : State V M) (writes : List (Name × V)) :
    (state.defineAll writes).history =
      state.history ++ writes.map fun write => .define write.1 write.2 := by
  induction writes generalizing state with
  | nil => simp
  | cons write rest ih => simp [ih]

private theorem after_history (state : State V M) (outcome : Outcome V M) :
    state.history <+: (state.after outcome).history := by
  rw [after, history_defineAll, List.append_assoc]
  exact List.prefix_append ..

/-- What has happened stays on record while instructions run. -/
theorem history_steps {instrs : List Instr} {state final : State V M}
    (ran : instrs.foldlM (machine.step source) state = some final) :
    state.history <+: final.history := by
  induction instrs generalizing state with
  | nil =>
    cases ran
    exact List.prefix_refl _
  | cons instr rest ih =>
    simp only [List.foldlM_cons, Option.bind_eq_bind, Option.bind_eq_some_iff, Machine.step,
      Option.map_eq_some_iff] at ran
    obtain ⟨next, ⟨result, -, rfl⟩, later⟩ := ran
    exact (after_history state result).trans (ih later)

end KernelGuard.State

namespace KernelGuard.Machine

variable {V M : Type} {machine : Machine V M}

theorem step_arith {state : State V M} (left : machine.operand state.env lhs = some l)
    (right : machine.operand state.env rhs = some r)
    (computed : machine.arith op type l r state.memory = some value) :
    machine.step source state (.arith target op type lhs rhs) =
      some (state.define target.name value) := by
  simp only [step, outcome, left, right, computed, Option.bind_eq_bind, Option.bind_some,
    Option.pure_def, Option.map_some, State.after_written]

/-- What running a block takes: its phis, its instructions and then its terminator. -/
theorem runBlock_eq_some_iff {state : State V M} {block : Block} {next : Config V M} :
    machine.runBlock source state block = some next ↔
      ∃ values, machine.phiValues (state.enter block.label).env source block.phis = some values ∧
      ∃ final, block.instrs.foldlM (machine.step source)
        ((state.enter block.label).defineAll values) = some final ∧
      ∃ terminator, block.terminator = some terminator ∧
      ∃ control, machine.leave final.env block.label terminator = some control ∧
        ⟨control, final⟩ = next := by
  simp only [runBlock, Option.bind_eq_bind, Option.bind_eq_some_iff, Option.pure_def,
    Option.some.injEq]

/-- A run goes on with one of the blocks, or stays as it is once it has returned. -/
theorem advance_cases {func : Func} {config next : Config V M}
    (advanced : machine.advance func config = some next) :
    (∃ source, ∃ block ∈ func.blocks, machine.runBlock source config.state block = some next) ∨
      (∃ value, config.control = .returned value) ∧ next = config := by
  cases place : config.control with
  | entry =>
    simp only [advance, place, Option.bind_eq_some_iff] at advanced
    obtain ⟨block, first, ran⟩ := advanced
    exact .inl ⟨none, block, List.mem_of_mem_head? first, ran⟩
  | edge source target =>
    simp only [advance, place, Option.bind_eq_some_iff] at advanced
    obtain ⟨block, found, ran⟩ := advanced
    exact .inl ⟨some source, block, List.mem_of_find?_eq_some found, ran⟩
  | returned value =>
    simp only [advance, place, Option.some.injEq] at advanced
    exact .inr ⟨⟨value, rfl⟩, advanced.symm⟩

/-- Running a block only adds to what has happened. -/
theorem history_advance {func : Func} {config next : Config V M}
    (ran : machine.advance func config = some next) :
    config.state.history <+: next.state.history := by
  rcases advance_cases ran with ⟨source, block, -, did⟩ | ⟨-, rfl⟩
  · obtain ⟨values, -, final, steps, _, -, _, -, rfl⟩ := runBlock_eq_some_iff.mp did
    have entered : config.state.history <+:
        ((config.state.enter block.label).defineAll values).history := by
      rw [State.history_defineAll, State.enter, List.append_assoc]
      exact List.prefix_append ..
    exact entered.trans (State.history_steps steps)
  · exact List.prefix_refl _

/-- The configuration after a number of blocks. -/
def runFor (machine : Machine V M) (func : Func) (start : Config V M) : Nat → Option (Config V M)
  | 0 => some start
  | n + 1 => (runFor machine func start n).bind (machine.advance func)

/-- A function that returns after some blocks has a run, and nothing happens after
the return. -/
theorem run_of_return {func : Func} {start final : Config V M} {value : Option V} {count : Nat}
    (ends : machine.runFor func start count = some final)
    (returned : final.control = .returned value) :
    ∃ run, machine.IsRun func start run ∧ run count = final ∧
      ∀ n, (run n).state.history <+: final.state.history := by
  have later : ∀ more, machine.runFor func start (count + more) = some final := by
    intro more
    induction more with
    | zero => exact ends
    | succ more ih =>
      rw [← Nat.add_assoc, runFor, ih, Option.bind_some]
      simp only [advance, returned]
  have earlier : ∀ n, ∃ config, machine.runFor func start n = some config := by
    intro n
    rcases Nat.le_total count n with past | before
    · exact ⟨final, Nat.add_sub_cancel' past ▸ later (n - count)⟩
    · obtain ⟨more, rfl⟩ := Nat.exists_eq_add_of_le before
      clear later before returned
      induction more generalizing final with
      | zero => exact ⟨final, ends⟩
      | succ more ih =>
        rw [← Nat.add_assoc, runFor, Option.bind_eq_some_iff] at ends
        obtain ⟨middle, reached, -⟩ := ends
        exact ih reached
  choose run reached using earlier
  have moves : ∀ n, machine.advance func (run n) = some (run (n + 1)) := by
    intro n
    have next := reached (n + 1)
    rwa [runFor, reached n, Option.bind_some] at next
  have grows : ∀ n more, (run n).state.history <+: (run (n + more)).state.history := by
    intro n more
    induction more with
    | zero => exact List.prefix_refl _
    | succ more ih => exact ih.trans (history_advance (moves (n + more)))
  have settled : ∀ more, run (count + more) = final := fun more =>
    Option.some.inj ((reached (count + more)).symm.trans (later more))
  refine ⟨run, ⟨Option.some.inj (reached 0).symm, moves⟩, settled 0, fun n => ?_⟩
  have sum := grows n count
  rwa [Nat.add_comm, settled n] at sum

end KernelGuard.Machine
