import KernelGuard.Proofs.ConditionMeaning
import KernelGuard.Proofs.Simulation

/-! What folding a bound does to the runs of a function. The recorded comparison
is the only definition of its temporary, so the function without it can follow
every run in which the comparison always holds: wherever the temporary is read,
whether by an instruction, a phi or a branch, its reader has been handed `true`. -/
namespace KernelGuard.Func

/-- The instructions that define a temporary, in block order. -/
def definitions (func : Func) (name : Name) : List Instr :=
  (func.blocks.flatMap Block.body).filter (·.writes name)

end KernelGuard.Func

namespace KernelGuard.BoundRemoval

variable {V M : Type} {machine : Machine V M} {name : Name}

/-- Hands `true` to the readers of a temporary. -/
def withTrue (name : Name) : Value → Value := Value.substitute name (.bool true)

/-- A block whose definitions of a temporary are gone and whose readers of it are
handed `true`. -/
def foldedBlock (name : Name) (block : Block) : Block :=
  (block.withoutDefinition name).mapOperands (withTrue name)

/-- A function of such blocks. -/
def foldedFunc (name : Name) (func : Func) : Func :=
  { func with blocks := func.blocks.map (foldedBlock name) }

/-- The removals on offer, each with the dimension that it is for. -/
def removals : List (Dimension × (Analysis → Func → Logged Removal)) :=
  [(.x, Analysis.removeXUpperBound), (.y, Analysis.removeYUpperBound)]

/-! ## What is left of the function -/

private theorem withoutDefinition_of_undefined {block : Block}
    (undefined : block.defines name = false) : block.withoutDefinition name = block := by
  have none : ∀ instr ∈ block.body, instr.writes name = false := by
    simpa [Block.defines] using undefined
  have phis : ∀ phi ∈ block.phis, (Instr.phi phi).writes name = false := fun phi member =>
    none _ (List.mem_append_left _ (List.mem_map_of_mem member))
  have instrs : ∀ instr ∈ block.instrs, instr.writes name = false := fun instr member =>
    none _ (List.mem_append_right _ member)
  unfold Block.withoutDefinition
  rw [List.filter_eq_self.mpr (by simpa using phis), List.filter_eq_self.mpr (by simpa using instrs)]

/-- Where a temporary is defined once, erasing it in its block erases it everywhere. -/
private theorem eraseIn_of_single {blocks : List Block}
    (single : ((blocks.flatMap Block.body).filter (·.writes name)).length = 1) :
    Func.eraseIn name blocks = some (blocks.map (·.withoutDefinition name)) := by
  induction blocks with
  | nil => simp at single
  | cons block rest ih =>
    rw [List.flatMap_cons, List.filter_append, List.length_append] at single
    by_cases defines : block.defines name = true
    · have here : 0 < (block.body.filter (·.writes name)).length :=
        List.length_filter_pos_iff.mpr (List.any_eq_true.mp defines)
      have elsewhere : (rest.flatMap Block.body).filter (·.writes name) = [] :=
        List.length_eq_zero_iff.mp (by omega)
      have others : ∀ other ∈ rest, other.withoutDefinition name = other := by
        intro other member
        refine withoutDefinition_of_undefined (List.any_eq_false.mpr fun instr inside => ?_)
        exact List.filter_eq_nil_iff.mp elsewhere instr
          (List.mem_flatMap.mpr ⟨other, member, inside⟩)
      simp [Func.eraseIn, defines, List.map_congr_left others]
    · have undefined : block.body.filter (·.writes name) = [] :=
        List.filter_eq_nil_iff.mpr (List.any_eq_false.mp (Bool.not_eq_true _ ▸ defines))
      rw [undefined, List.length_nil, Nat.zero_add] at single
      simp [Func.eraseIn, defines, ih single,
        withoutDefinition_of_undefined (by simpa using defines)]

/-- The function that a removal leaves behind. -/
private theorem replaceDefinition?_of_single {func : Func}
    (single : (func.definitions name).length = 1) :
    func.replaceDefinition? name (.bool true) =
      some (foldedFunc name func) := by
  simp [Func.replaceDefinition?, Func.eraseDefinition?, eraseIn_of_single single, Func.substitute,
    foldedFunc, foldedBlock, withTrue, Function.comp_def]

/-- The only definition of a temporary is the first one. -/
theorem only_definition {func : Func} {definition : Instr}
    (single : (func.definitions name).length = 1)
    (defined : func.definition? name = some definition) :
    ∀ block ∈ func.blocks, ∀ instr ∈ block.body, instr.writes name = true → instr = definition := by
  have all : ∀ block ∈ func.blocks, ∀ instr ∈ block.body, instr.writes name = true →
      instr ∈ func.definitions name := fun block member instr inside writes =>
    List.mem_filter.mpr ⟨List.mem_flatMap.mpr ⟨block, member, inside⟩, writes⟩
  obtain ⟨only, alone⟩ := List.length_eq_one_iff.mp single
  obtain ⟨block, member, inside, writes⟩ := Func.definition_inside defined
  have first := all block member definition inside writes
  intro block member instr inside writes
  have other := all block member instr inside writes
  rw [alone, List.mem_singleton] at first other
  rw [first, other]

/-! ## States in step -/

/-- The states of two runs when one has the comparison and the other does not: all
other temporaries agree, and the comparison is true where it has been made. -/
private structure Folded (machine : Machine V M) (name : Name) (state folded : State V M) :
    Prop where
  elsewhere : ∀ other, other ≠ name → folded.env other = state.env other
  holds : ∀ value, state.env name = some value → value = machine.constant (.bool true)
  memory : folded.memory = state.memory
  history : folded.history = state.history.filter (!·.writes name)

/-- Every definition of the comparison so far made it true. -/
private def Always (machine : Machine V M) (name : Name) (history : List (Event V)) : Prop :=
  ∀ value, .define name value ∈ history → value = machine.constant (.bool true)

private theorem folded_operand {state folded : State V M} (related : Folded machine name state folded)
    (value : Value) (v : V) (read : machine.operand state.env value = some v) :
    machine.operand folded.env (withTrue name value) = some v := by
  unfold withTrue Value.substitute
  by_cases reader : value.name? = some name
  · rw [Machine.operand, reader] at read
    rw [if_pos reader, related.holds v read]
    rfl
  · rw [if_neg reader]
    cases named : value.name? with
    | none => simpa only [Machine.operand, named] using read
    | some other =>
      have different : other ≠ name := fun same => reader (same ▸ named)
      simpa only [Machine.operand, named, related.elsewhere other different] using read

private theorem folded_define {state folded : State V M}
    (related : Folded machine name state folded) (different : other ≠ name) (value : V) :
    Folded machine name (state.define other value) (folded.define other value) where
  elsewhere := by
    intro read apart
    by_cases same : read = other
    · subst same
      simp [State.define]
    · simpa [State.define, Function.update_of_ne same] using related.elsewhere read apart
  holds := by
    intro v known
    exact related.holds v (by simpa [State.define, Function.update_of_ne different.symm] using known)
  memory := related.memory
  history := by simp [related.history, Event.writes, different]

private theorem folded_defineAll {state folded : State V M}
    (related : Folded machine name state folded) {writes : List (Name × V)}
    (different : ∀ write ∈ writes, write.1 ≠ name) :
    Folded machine name (state.defineAll writes) (folded.defineAll writes) := by
  induction writes generalizing state folded with
  | nil => exact related
  | cons write rest ih =>
    have first := folded_define related (different write List.mem_cons_self) write.2
    exact ih first fun other member => different other (List.mem_cons_of_mem _ member)

/-- The comparison itself is made on one side only. -/
private theorem folded_erased {state folded : State V M}
    (related : Folded machine name state folded) :
    Folded machine name (state.define name (machine.constant (.bool true))) folded where
  elsewhere := by
    intro other different
    simpa [State.define, Function.update_of_ne different] using related.elsewhere other different
  holds := by
    intro v known
    simpa [State.define, eq_comm] using known
  memory := related.memory
  history := by simp [related.history, Event.writes]

private theorem folded_after {state folded : State V M}
    (related : Folded machine name state folded) {result : Outcome V M}
    (effects : ∀ event ∈ result.seen, event.isEffect = true)
    (different : ∀ write ∈ result.written.toList, write.1 ≠ name) :
    Folded machine name (state.after result) (folded.after result) := by
  refine folded_defineAll ?_ different
  refine ⟨related.elsewhere, related.holds, rfl, ?_⟩
  have kept : result.seen.toList.filter (!·.writes name) = result.seen.toList := by
    refine List.filter_eq_self.mpr fun event member => ?_
    rw [Event.effect_writes_nothing (effects event (by simpa using member))]
    rfl
  simp only [related.history, List.filter_append, kept]

private theorem folded_blocks {state folded : State V M}
    (related : Folded machine name state folded) : folded.blocks = state.blocks := by
  rw [State.blocks, State.blocks, related.history, List.filterMap_filter]
  refine List.filterMap_congr fun event _ => ?_
  cases event <;> simp [Event.writes, Event.block?]

private theorem folded_effects {state folded : State V M}
    (related : Folded machine name state folded) : folded.effects = state.effects := by
  rw [State.effects, State.effects, related.history, List.filter_filter]
  refine List.filter_congr fun event _ => ?_
  cases event <;> simp [Event.writes, Event.isEffect]

/-! ## Following a run -/

/-- An instruction compares two values. -/
private def Compares (instr : Instr) : Prop :=
  ∃ target kind predicate type lhs rhs, instr = .compare target kind predicate type lhs rhs

/-- Every other instruction does the same once its reads have been handed `true`. -/
private theorem folded_step {state folded next : State V M} {instr : Instr}
    (related : Folded machine name state folded) (different : instr.writes name = false)
    (ran : machine.step source state instr = some next) :
    ∃ next', machine.step source folded (instr.mapOperands (withTrue name)) = some next' ∧
      Folded machine name next next' := by
  simp only [Machine.step, Option.map_eq_some_iff] at ran
  obtain ⟨result, did, rfl⟩ := ran
  have same := Machine.outcome_mapped (folded_operand related) did
  obtain ⟨target, effects⟩ := Machine.outcome_shape did
  refine ⟨folded.after result, by simp only [Machine.step, related.memory, same, Option.map_some],
    folded_after related effects ?_⟩
  intro write member writes
  have written : result.written = some write := by simpa using member
  rw [written, Option.map_some, writes] at target
  rw [Instr.writes, ← target] at different
  simp at different

/-- The comparison does nothing but write its temporary. -/
private theorem folded_comparison {state folded next : State V M} {instr : Instr}
    (related : Folded machine name state folded) (compares : Compares instr)
    (writes : instr.writes name = true) (ran : machine.step source state instr = some next)
    (always : Always machine name next.history) : Folded machine name next folded := by
  obtain ⟨target, kind, predicate, type, lhs, rhs, rfl⟩ := compares
  have named : target.name = name := by simpa [Instr.writes, Instr.target?] using writes
  simp only [Machine.step, Machine.outcome, Option.bind_eq_bind, Option.map_eq_some_iff,
    Option.bind_eq_some_iff, Option.pure_def, Option.some.injEq] at ran
  obtain ⟨_, ⟨l, _, r, _, value, _, rfl⟩, rfl⟩ := ran
  subst named
  have recorded : .define target.name value ∈
      (state.after ⟨some (target.name, value), state.memory, none⟩).history := by
    simp [State.after]
  obtain rfl := always value recorded
  simpa [State.after] using folded_erased related

private theorem folded_steps {instrs : List Instr} {state folded final : State V M}
    (comparisons : ∀ instr ∈ instrs, instr.writes name = true → Compares instr)
    (related : Folded machine name state folded)
    (ran : instrs.foldlM (machine.step source) state = some final)
    (always : Always machine name final.history) :
    ∃ final', ((instrs.filter (!·.writes name)).map (Instr.mapOperands (withTrue name))).foldlM
        (machine.step source) folded = some final' ∧ Folded machine name final final' := by
  induction instrs generalizing state folded with
  | nil =>
    cases ran
    exact ⟨folded, rfl, related⟩
  | cons instr rest ih =>
    simp only [List.foldlM_cons, Option.bind_eq_bind, Option.bind_eq_some_iff] at ran
    obtain ⟨next, first, later⟩ := ran
    have others := fun other member => comparisons other (List.mem_cons_of_mem instr member)
    by_cases writes : instr.writes name = true
    · have soFar : Always machine name next.history := fun value recorded =>
        always value ((State.history_steps later).subset recorded)
      have erased := folded_comparison related (comparisons instr List.mem_cons_self writes) writes
        first soFar
      rw [List.filter_cons_of_neg (by simpa using writes)]
      exact ih others erased later
    · obtain ⟨next', step, together⟩ := folded_step related (Bool.eq_false_iff.mpr writes) first
      obtain ⟨final', steps, atEnd⟩ := ih others together later
      rw [List.filter_cons_of_pos (by simpa using writes)]
      exact ⟨final', by simp [step, steps], atEnd⟩

/-- A block whose comparison has been folded does what it did before. -/
private theorem folded_runBlock {block : Block} {state folded : State V M} {next : Config V M}
    (comparisons : ∀ instr ∈ block.body, instr.writes name = true → Compares instr)
    (related : Folded machine name state folded)
    (ran : machine.runBlock source state block = some next)
    (always : Always machine name next.state.history) :
    ∃ next', machine.runBlock source folded (foldedBlock name block) = some next' ∧
      next'.control = next.control ∧ Folded machine name next.state next'.state := by
  have noPhi : ∀ phi ∈ block.phis, (Instr.phi phi).writes name = false := by
    intro phi member
    refine Bool.eq_false_iff.mpr fun writes => ?_
    obtain ⟨_, _, _, _, _, _, impossible⟩ :=
      comparisons _ (List.mem_append_left _ (List.mem_map_of_mem member)) writes
    cases impossible
  have phis : (foldedBlock name block).phis = block.phis.map (Phi.mapOperands (withTrue name)) := by
    simp only [foldedBlock, Block.mapOperands, Block.withoutDefinition]
    rw [List.filter_eq_self.mpr (by simpa using noPhi)]
  obtain ⟨values, taken, final, steps, terminator, ends, control, left, rfl⟩ :=
    Machine.runBlock_eq_some_iff.mp ran
  have entered : Folded machine name (state.enter block.label) (folded.enter block.label) :=
    ⟨related.elsewhere, related.holds, related.memory,
      by simp [State.enter, related.history, Event.writes]⟩
  have different : ∀ write ∈ values, write.1 ≠ name := by
    intro write member same
    have named : name ∈ block.phis.map (·.target.name) :=
      Machine.phiValues_names taken ▸ same ▸ List.mem_map_of_mem member
    obtain ⟨phi, inside, target⟩ := List.mem_map.mp named
    simpa [Instr.writes, Instr.target?, target] using noPhi phi inside
  obtain ⟨final', steps', together⟩ := folded_steps
    (fun instr member => comparisons instr (List.mem_append_right _ member))
    (folded_defineAll entered different) steps always
  refine ⟨⟨control, final'⟩, ?_, rfl, together⟩
  exact Machine.runBlock_eq_some_iff.mpr
    ⟨values, phis ▸ Machine.phiValues_mapped (folded_operand entered) taken, final', steps',
    terminator.mapOperands (withTrue name), by
      simp [foldedBlock, Block.mapOperands, Block.withoutDefinition, ends],
    control, Machine.leave_mapped (folded_operand together) left, rfl⟩

/-- Two runs between the same two blocks, one with the comparison and one without it. -/
private def Together (machine : Machine V M) (name : Name) (config folded : Config V M) : Prop :=
  folded.control = config.control ∧ Folded machine name config.state folded.state

private theorem folded_advance {func : Func} {config folded next : Config V M}
    (comparisons : ∀ block ∈ func.blocks, ∀ instr ∈ block.body, instr.writes name = true →
      Compares instr)
    (together : Together machine name config folded)
    (ran : machine.advance func config = some next)
    (always : Always machine name next.state.history) :
    ∃ next', machine.advance (foldedFunc name func) folded = some next' ∧
      Together machine name next next' := by
  obtain ⟨control, related⟩ := together
  cases place : config.control with
  | entry =>
    simp only [Machine.advance, place, Option.bind_eq_some_iff] at ran
    obtain ⟨block, first, did⟩ := ran
    obtain ⟨next', does, together⟩ := folded_runBlock
      (comparisons block (List.mem_of_mem_head? first)) related did always
    exact ⟨next', by
      simp [Machine.advance, foldedFunc, control, place, List.head?_map, first, does], together⟩
  | edge source target =>
    simp only [Machine.advance, place, Option.bind_eq_some_iff] at ran
    obtain ⟨block, found, did⟩ := ran
    obtain ⟨next', does, together⟩ := folded_runBlock
      (comparisons block (List.mem_of_find?_eq_some found)) related did always
    have same : (func.blocks.map (foldedBlock name)).find? (·.label = target) =
        some (foldedBlock name block) := by
      rw [List.find?_map]
      exact congrArg (Option.map (foldedBlock name)) found
    exact ⟨next', by
      simp only [Machine.advance, foldedFunc, control, place, same, Option.bind_some, does],
      together⟩
  | returned value =>
    simp only [Machine.advance, place, Option.some.injEq] at ran
    subst ran
    exact ⟨folded, by simp [Machine.advance, control, place], control, related⟩

/-! ## From the beginning -/

private theorem folded_defines {block : Block} (different : other ≠ name) :
    (foldedBlock name block).defines other = block.defines other := by
  rw [foldedBlock, Block.defines_mapOperands, Block.defines_withoutDefinition block different]

private theorem folded_start {func : Func} {arguments : List V} {addresses : String → Option V}
    {memory : M} (parameters : ∀ param ∈ func.params, param.name ≠ name)
    (defined : func.blocks.any (·.defines name) = true) :
    Folded machine name (func.start arguments addresses memory).state
      ((foldedFunc name func).start arguments addresses memory).state where
  elsewhere := by
    intro other different
    simp [Func.start, Func.entryEnv, foldedFunc, List.any_map, Function.comp_def,
      folded_defines different]
  holds := by
    intro value known
    have unbound : (func.params.zip arguments).find? (·.1.name = name) = none := by
      refine List.find?_eq_none.mpr fun pair member => ?_
      simpa using parameters pair.1 (List.of_mem_zip member).1
    simp [Func.start, Func.entryEnv, unbound, defined] at known
  memory := rfl
  history := rfl

/-- A fresh analysis carries the removal of a usable fact out. -/
private theorem removeUpperBound_of_single {func : Func} {region : Region}
    {symbols : IndexSymbols} {postDominates : Nat → Nat → Bool} {dimension : Dimension}
    {fact : BoundFact}
    (usable : (Analysis.ofRegion func region postDominates symbols).value.usable? dimension =
      some fact)
    (single : (func.definitions fact.compare.name).length = 1) :
    let removal := ((Analysis.ofRegion func region postDominates symbols).value.removeUpperBound
      dimension func).value
    removal.changed = true ∧
      removal.func = foldedFunc fact.compare.name func := by
  have unspent : (Analysis.ofRegion func region postDominates symbols).value.removed =
      .replicate false := by
    cases located : (EarlyExit.locate func region postDominates).value with
    | none => rw [Analysis.ofRegion_unlocated located]
    | some exit => rw [Analysis.ofRegion_located located]
  simp [Analysis.removeUpperBound, usable, unspent, replaceDefinition?_of_single single]

/-- Without a usable fact nothing is removed. -/
private theorem removeUpperBound_of_none {func : Func} {analysis : Analysis} {dimension : Dimension}
    (none' : analysis.usable? dimension = none) :
    (analysis.removeUpperBound dimension func).value = ⟨analysis, func, false⟩ := by
  simp [Analysis.removeUpperBound, none']

/-- The runs of a function whose folded comparison has one definition and always holds. -/
private theorem folded_keeps_runs {func : Func} {region : Region} {symbols : IndexSymbols}
    {postDominates : Nat → Nat → Bool} {dimension : Dimension} {fact : BoundFact}
    {arguments : List V} {addresses : String → Option V} {memory : M} {run : Nat → Config V M}
    (usable : (Analysis.ofRegion func region postDominates symbols).value.usable? dimension =
      some fact)
    (single : (func.definitions fact.compare.name).length = 1)
    (parameters : ∀ param ∈ func.params, param.name ≠ fact.compare.name)
    (isRun : machine.IsRun func (func.start arguments addresses memory) run)
    (holds : ∀ n value, .define fact.compare.name value ∈ (run n).state.history →
      value = machine.constant (.bool true)) :
    let folded := foldedFunc fact.compare.name func
    ∃ run', machine.IsRun folded (folded.start arguments addresses memory) run' ∧
      ∀ n, (run' n).control = (run n).control ∧
        (run' n).state.blocks = (run n).state.blocks ∧
        (run' n).state.effects = (run n).state.effects ∧
        (run' n).state.memory = (run n).state.memory := by
  intro folded
  obtain ⟨-, -, definition, defined, bounds⟩ :=
    Condition.kept_fact_bounds (Analysis.kept_of_usable usable)
  have comparisons : ∀ block ∈ func.blocks, ∀ instr ∈ block.body,
      instr.writes fact.compare.name = true → Compares instr := by
    intro block member instr inside writes
    rw [only_definition single defined block member instr inside writes]
    generalize fact.bound = bound at bounds
    cases bounds with
    | less => exact ⟨_, _, _, _, _, _, rfl⟩
  have somewhere : func.blocks.any (·.defines fact.compare.name) = true := by
    obtain ⟨block, member, found⟩ := List.exists_of_findSome?_eq_some defined
    exact List.any_eq_true.mpr ⟨block, member, List.any_eq_true.mpr
      ⟨definition, List.mem_of_find?_eq_some found,
        List.find?_some (p := (Instr.writes · fact.compare.name)) found⟩⟩
  have started : Together machine fact.compare.name (func.start arguments addresses memory)
      (folded.start arguments addresses memory) :=
    ⟨rfl, folded_start parameters somewhere⟩
  obtain ⟨run', follows, together⟩ := Machine.run_followed (Together machine fact.compare.name)
    isRun started
    fun n config related => folded_advance comparisons related (isRun.advances n) (holds (n + 1))
  refine ⟨run', follows, fun n => ?_⟩
  obtain ⟨control, related⟩ := together n
  exact ⟨control, folded_blocks related, folded_effects related, related.memory⟩

/-- Folding a bound keeps every run in which the comparison always holds. Where the
comparison's temporary has one definition and is no parameter, the changed
function enters the same blocks, makes the same stores and calls in the same
order, and returns the same value. Without a usable comparison nothing changes. -/
theorem bound_removal_keeps_runs {func : Func} {region : Region} {symbols : IndexSymbols}
    {postDominates : Nat → Nat → Bool} {dimension : Dimension}
    {remove : Analysis → Func → Logged Removal} {arguments : List V}
    {addresses : String → Option V} {memory : M} {run : Nat → Config V M}
    (offered : (dimension, remove) ∈ removals)
    (single : ∀ fact,
      (Analysis.ofRegion func region postDominates symbols).value.usable? dimension = some fact →
        (func.definitions fact.compare.name).length = 1 ∧
          ∀ param ∈ func.params, param.name ≠ fact.compare.name)
    (isRun : machine.IsRun func (func.start arguments addresses memory) run)
    (holds : ∀ fact,
      (Analysis.ofRegion func region postDominates symbols).value.usable? dimension = some fact →
        ∀ n value, .define fact.compare.name value ∈ (run n).state.history →
          value = machine.constant (.bool true)) :
    let analysis := (Analysis.ofRegion func region postDominates symbols).value
    let removal := (remove analysis func).value
    removal.changed = (analysis.usable? dimension).isSome ∧
      ∃ run', machine.IsRun removal.func (removal.func.start arguments addresses memory) run' ∧
        ∀ n, (run' n).control = (run n).control ∧
          (run' n).state.blocks = (run n).state.blocks ∧
          (run' n).state.effects = (run n).state.effects ∧
          (run' n).state.memory = (run n).state.memory := by
  have removes : remove = fun analysis func => analysis.removeUpperBound dimension func := by
    simp only [removals, List.mem_cons, Prod.mk.injEq, List.not_mem_nil, or_false] at offered
    rcases offered with ⟨rfl, rfl⟩ | ⟨rfl, rfl⟩ <;> rfl
  subst removes
  intro analysis removal
  cases usable : analysis.usable? dimension with
  | none =>
    have unchanged : removal = ⟨analysis, func, false⟩ := removeUpperBound_of_none usable
    rw [unchanged]
    exact ⟨rfl, run, isRun, fun n => ⟨rfl, rfl, rfl, rfl⟩⟩
  | some fact =>
    obtain ⟨once, parameters⟩ := single fact usable
    obtain ⟨changed, folded⟩ := removeUpperBound_of_single usable once
    refine ⟨changed, ?_⟩
    rw [show removal.func = foldedFunc fact.compare.name func from folded]
    exact folded_keeps_runs usable once parameters isRun (holds fact usable)

/-- A work-item that both bounds of the kernel let through. -/
def planeStart : Config Int Unit := Condition.planeKernel.start [100, 50] (fun _ => some 0) ()

/-- What such a work-item does. -/
def planeHistory : List (Event Int) := [
  .enter "entry", .define ⟨"x", false⟩ 3, .define ⟨"y", false⟩ 3, .define ⟨"i", false⟩ 11,
  .define ⟨"j", false⟩ 7, .define ⟨"a", false⟩ 1, .define ⟨"b", false⟩ 1, .define ⟨"c", false⟩ 1,
  .enter "body", .invoke .void "work" [], .enter "exit"]

private theorem plane_returns : ∃ final,
    integerMachine.runFor Condition.planeKernel planeStart 3 = some final ∧
      final.control = .returned none ∧ final.state.history = planeHistory := by
  have ends : (integerMachine.runFor Condition.planeKernel planeStart 3).map
      (fun config => (config.control, config.state.history)) =
        some (.returned none, planeHistory) := by
    decide +kernel
  simpa using ends

/-- The first bound of the kernel can be folded, and the work-item does its work as before. -/
theorem plane_bound_folded :
    let analysis := (Analysis.ofRegion Condition.planeKernel (Region.whole Condition.planeKernel)
      (Condition.planeKernel.domTree .backward).dominates .standard).value
    let removal := (analysis.removeXUpperBound Condition.planeKernel).value
    analysis.usable? .x = some
        ⟨.x, .ofLocal "a" .i1, .temp (.ofLocal "n" .i32), "%a = icmp ult i32 %i, %n"⟩ ∧
      ∃ run, integerMachine.IsRun removal.func (removal.func.start [100, 50] (fun _ => some 0) ()) run ∧
        (run 3).control = .returned none ∧
        (run 3).state.blocks = ["entry", "body", "exit"] ∧
        (run 3).state.effects = [.invoke .void "work" []] := by
  intro analysis removal
  have usable : analysis.usable? .x = some
      ⟨.x, .ofLocal "a" .i1, .temp (.ofLocal "n" .i32), "%a = icmp ult i32 %i, %n"⟩ := by
    rw [show analysis = _ from Analysis.ofRegion_located Condition.planeGuard_located]
    cbv
  obtain ⟨final, ends, returned, history⟩ := plane_returns
  obtain ⟨run, isRun, rfl, within⟩ := Machine.run_of_return ends returned
  have holds : ∀ n value, .define ⟨"a", false⟩ value ∈ (run n).state.history →
      value = integerMachine.constant (.bool true) := by
    intro n value made
    have recorded := (within n).subset made
    rw [history] at recorded
    simpa [planeHistory, integerMachine] using recorded
  obtain ⟨-, run', isRun', same⟩ := bound_removal_keeps_runs (List.mem_cons_self)
    (fun fact found => by
      obtain rfl := Option.some.inj (usable.symm.trans found)
      exact ⟨by decide, by decide⟩)
    isRun
    (fun fact found => by
      obtain rfl := Option.some.inj (usable.symm.trans found)
      exact holds)
  obtain ⟨control, blocks, effects, -⟩ := same 3
  refine ⟨usable, run', isRun', control.trans returned, ?_, ?_⟩
  · rw [blocks, State.blocks, history]
    rfl
  · rw [effects, State.effects, history]
    rfl

end KernelGuard.BoundRemoval
