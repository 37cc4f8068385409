import KernelGuard.Pass.FusedMultiplyAdd
import KernelGuard.Proofs.FreshNames
import KernelGuard.Proofs.Simulation
import Mathlib.Data.List.Forall2

/-! What lowering does to the runs of a function. A lowered call takes one
instruction more, and the product it makes has a name that nothing else in the
function has. So the two functions go through the same blocks with the same
values in every temporary that the first one knows, whichever calls the runs
meet and however often they meet them. -/
namespace KernelGuard.FusedMultiplyAdd

variable {V M : Type} {machine : Machine V M} {used : List String}

/-- On this machine the intrinsic functions multiply, then add, and leave memory
alone. -/
def Fuses (machine : Machine V M) : Prop :=
  ∀ type callee aType a bType b cType c memory,
    intrinsic.toList.isPrefixOf callee.toList = true →
    machine.call type callee [(aType, a), (bType, b), (cType, c)] memory =
      (machine.arith .fmul type a b memory).bind fun product =>
        (machine.arith .fadd type product c memory).map fun sum => (sum, memory)

/-- Whether an event is a call that lowering takes apart. -/
def isFused : Event V → Bool
  | .call _ callee [_, _, _] => intrinsic.toList.isPrefixOf callee.toList
  | _ => false

/-- Functions as they come out of linking, after any number of lowerings and new
temporaries in any order. -/
inductive Derived : Func → Prop where
  | linked (ofModule : Func.ofModule function = .ok func) : Derived func
  | lowered (before : Derived func) : Derived (lower func).value.1
  | named (before : Derived func) (stem : String) (type : Ty) : Derived (func.newTemp stem type).2

/-- A name that a fresh one cannot be: a global one, or one in use. -/
def InUse (used : List String) (name : Name) : Prop :=
  name.isGlobal = true ∨ name.spelling ∈ used

theorem inUse_wider {more : List String} (inUse : InUse used name) (wider : used ⊆ more) :
    InUse more name :=
  inUse.imp_right fun known => wider known

/-- A fresh name is none that was in use. -/
theorem fresh_ne_used {names : NameSupply} (inUse : InUse names.used name) (stem : String)
    (type : Ty) : (names.fresh stem type).1.name ≠ name := by
  rintro rfl
  rcases inUse with global | known
  · cases global
  · exact names.fresh_unused stem type known

theorem inUse_fresh {names : NameSupply} (inUse : InUse names.used name) (stem : String)
    (type : Ty) : InUse (names.fresh stem type).2.used name :=
  inUse_wider inUse fun _ known => (names.mem_used_fresh stem type).mpr (.inr known)

/-! ## What a lowering writes -/

theorem call_eq_some_iff {instr : Instr} {call : Call} :
    call? instr = some call ↔ ∃ callee aType bType cType,
      instr = .call (some call.target) call.type callee
        [(aType, call.a), (bType, call.b), (cType, call.c)] ∧
      intrinsic.toList.isPrefixOf callee.toList = true := by
  constructor
  · intro found
    unfold call? at found
    split at found
    · split at found
      · rename_i begins
        cases found
        exact ⟨_, _, _, _, rfl, begins⟩
      · cases found
    · cases found
  · rintro ⟨callee, aType, bType, cType, rfl, begins⟩
    simp only [call?, if_pos begins]

theorem lowerInstrs_kept {instr : Instr} (plain : call? instr = none) (names : NameSupply)
    (rest : List Instr) :
    (lowerInstrs names (instr :: rest)).value =
      (instr :: (lowerInstrs names rest).value.1, (lowerInstrs names rest).value.2) := by
  simp only [lowerInstrs, plain, Logged.value_bind, Logged.value_pure]

theorem lowerInstrs_call {instr : Instr} {call : Call} (found : call? instr = some call)
    (names : NameSupply) (rest : List Instr) :
    let fresh := names.fresh "fmul" call.type
    (lowerInstrs names (instr :: rest)).value =
      (lowered call fresh.1 ++ (lowerInstrs fresh.2 rest).value.1,
        (lowerInstrs fresh.2 rest).value.2.1, true) := by
  simp only [lowerInstrs, found, Logged.value_bind, Logged.value_pure]

theorem used_lowerInstrs (instrs : List Instr) (names : NameSupply) :
    names.used ⊆ (lowerInstrs names instrs).value.2.1.used := by
  induction instrs generalizing names with
  | nil => exact List.Subset.refl _
  | cons instr rest ih =>
    cases found : call? instr with
    | none =>
      rw [lowerInstrs_kept found]
      exact ih names
    | some call =>
      rw [lowerInstrs_call found]
      intro spelling known
      exact ih _ ((NameSupply.mem_used_fresh names "fmul" call.type).mpr (.inr known))

/-- Every instruction after lowering was there before, is the sum that a call was,
or is a product with a name that was not in use. -/
private theorem mem_lowerInstrs {instrs : List Instr} {names : NameSupply} {instr : Instr}
    (member : instr ∈ (lowerInstrs names instrs).value.1) :
    instr ∈ instrs ∨
      (∃ call ∈ instrs, instr.target? = call.target?) ∨
      ∃ product, instr.target? = some product ∧ product.name.isGlobal = false ∧
        product.name.spelling ∉ names.used ∧
        product.name.spelling ∈ (lowerInstrs names instrs).value.2.1.used := by
  induction instrs generalizing names with
  | nil => exact .inl member
  | cons first rest ih =>
    cases found : call? first with
    | none =>
      rw [lowerInstrs_kept found] at member ⊢
      rcases List.mem_cons.mp member with rfl | later
      · exact .inl List.mem_cons_self
      · rcases ih later with old | ⟨call, inside, same⟩ | product
        · exact .inl (List.mem_cons_of_mem _ old)
        · exact .inr (.inl ⟨call, List.mem_cons_of_mem _ inside, same⟩)
        · exact .inr (.inr product)
    | some call =>
      obtain ⟨callee, aType, bType, cType, rfl, -⟩ := call_eq_some_iff.mp found
      rw [lowerInstrs_call found] at member ⊢
      simp only [lowered, List.cons_append, List.nil_append, List.mem_cons] at member
      rcases member with rfl | rfl | later
      · refine .inr (.inr ⟨_, rfl, rfl, NameSupply.fresh_unused names "fmul" call.type, ?_⟩)
        exact used_lowerInstrs rest _
          ((NameSupply.mem_used_fresh names "fmul" call.type).mpr (.inl rfl))
      · exact .inr (.inl ⟨_, List.mem_cons_self, rfl⟩)
      · rcases ih later with old | ⟨call, inside, same⟩ | ⟨product, written, isLocal, new, known⟩
        · exact .inl (List.mem_cons_of_mem _ old)
        · exact .inr (.inl ⟨call, List.mem_cons_of_mem _ inside, same⟩)
        · exact .inr (.inr ⟨product, written, isLocal, fun old => new
            ((NameSupply.mem_used_fresh names "fmul" call.type).mpr (.inr old)), known⟩)

/-- A block and what lowering makes of it, with the names in use somewhere before
and somewhere after. -/
def LowersTo (before after : List String) (block result : Block) : Prop :=
  ∃ names : NameSupply, before ⊆ names.used ∧
    result = { block with instrs := (lowerInstrs names block.instrs).value.1 } ∧
    (lowerInstrs names block.instrs).value.2.1.used ⊆ after

theorem lowerBlocks_value (names : NameSupply) (block : Block) (rest : List Block) :
    let lowered := (lowerInstrs names block.instrs).value
    (lowerBlocks names (block :: rest)).value =
      ({ block with instrs := lowered.1 } :: (lowerBlocks lowered.2.1 rest).value.1,
        (lowerBlocks lowered.2.1 rest).value.2.1,
        lowered.2.2 || (lowerBlocks lowered.2.1 rest).value.2.2) := rfl

theorem used_lowerBlocks (blocks : List Block) (names : NameSupply) :
    names.used ⊆ (lowerBlocks names blocks).value.2.1.used := by
  induction blocks generalizing names with
  | nil => exact List.Subset.refl _
  | cons block rest ih =>
    rw [lowerBlocks_value]
    exact List.Subset.trans (used_lowerInstrs block.instrs names) (ih _)

theorem lowerBlocks_each (blocks : List Block) (names : NameSupply) :
    List.Forall₂ (LowersTo names.used (lowerBlocks names blocks).value.2.1.used) blocks
      (lowerBlocks names blocks).value.1 := by
  induction blocks generalizing names with
  | nil => exact .nil
  | cons block rest ih =>
    rw [lowerBlocks_value]
    refine .cons ⟨names, List.Subset.refl _, rfl, used_lowerBlocks rest _⟩ ?_
    refine (ih (lowerInstrs names block.instrs).value.2.1).imp ?_
    rintro other result ⟨between, wider, rfl, later⟩
    exact ⟨between, List.Subset.trans (used_lowerInstrs block.instrs names) wider, rfl, later⟩

theorem origin_of_lowered {before after : List String} {blocks results : List Block}
    {result : Block} (pairs : List.Forall₂ (LowersTo before after) blocks results)
    (member : result ∈ results) : ∃ block ∈ blocks, LowersTo before after block result := by
  induction pairs with
  | nil => cases member
  | cons first _ ih =>
    rcases List.mem_cons.mp member with rfl | later
    · exact ⟨_, List.mem_cons_self, first⟩
    · obtain ⟨block, inside, lowers⟩ := ih later
      exact ⟨block, List.mem_cons_of_mem _ inside, lowers⟩

theorem result_of_block {before after : List String} {blocks results : List Block}
    {block : Block} (pairs : List.Forall₂ (LowersTo before after) blocks results)
    (member : block ∈ blocks) : ∃ result ∈ results, LowersTo before after block result := by
  induction pairs with
  | nil => cases member
  | cons first _ ih =>
    rcases List.mem_cons.mp member with rfl | later
    · exact ⟨_, List.mem_cons_self, first⟩
    · obtain ⟨result, inside, lowers⟩ := ih later
      exact ⟨result, List.mem_cons_of_mem _ inside, lowers⟩

private theorem head_lowered {before after : List String} {blocks results : List Block}
    {block : Block} (pairs : List.Forall₂ (LowersTo before after) blocks results)
    (first : blocks.head? = some block) :
    ∃ result, results.head? = some result ∧ LowersTo before after block result := by
  cases pairs with
  | nil => cases first
  | cons lowers _ =>
    cases first
    exact ⟨_, rfl, lowers⟩

private theorem find_lowered {before after : List String} {blocks results : List Block}
    {block : Block} {label : Label} (pairs : List.Forall₂ (LowersTo before after) blocks results)
    (found : blocks.find? (·.label = label) = some block) :
    ∃ result, results.find? (·.label = label) = some result ∧ LowersTo before after block result := by
  induction pairs with
  | nil => cases found
  | @cons first result _ _ lowers _ ih =>
    have same : result.label = first.label := by
      obtain ⟨_, _, rfl, _⟩ := lowers
      rfl
    by_cases here : first.label = label
    · rw [List.find?_cons_of_pos (by simpa using here)] at found
      cases found
      exact ⟨result, List.find?_cons_of_pos (by simpa [same] using here), lowers⟩
    · rw [List.find?_cons_of_neg (by simpa using here)] at found
      rw [List.find?_cons_of_neg (by simpa [same] using here)]
      exact ih found

private theorem mem_body_lowered {before after : List String} {block result : Block}
    (lowers : LowersTo before after block result) {instr : Instr} (member : instr ∈ result.body) :
    (∃ old ∈ block.body, instr.target? = old.target?) ∨
      ∃ product, instr.target? = some product ∧ product.name.isGlobal = false ∧
        product.name.spelling ∉ before ∧ product.name.spelling ∈ after := by
  obtain ⟨names, wider, rfl, later⟩ := lowers
  rcases List.mem_append.mp member with phi | plain
  · exact .inl ⟨instr, List.mem_append_left _ phi, rfl⟩
  · rcases mem_lowerInstrs plain with old | ⟨call, inside, same⟩ |
      ⟨product, written, isLocal, new, known⟩
    · exact .inl ⟨instr, List.mem_append_right _ old, rfl⟩
    · exact .inl ⟨call, List.mem_append_right _ inside, same⟩
    · exact .inr ⟨product, written, isLocal, fun old => new (wider old), later known⟩

/-- Lowering keeps all names of a function in use, its products included. -/
theorem accounted_lower {func : Func} (accounted : func.Accounted) :
    (lower func).value.1.Accounted where
  parameters param member :=
    used_lowerBlocks func.blocks func.names (accounted.parameters param member)
  targets := by
    intro result member instr inside target written
    obtain ⟨block, original, lowers⟩ :=
      origin_of_lowered (lowerBlocks_each func.blocks func.names) member
    rcases mem_body_lowered lowers inside with ⟨old, was, same⟩ | ⟨product, writes, -, -, known⟩
    · exact used_lowerBlocks func.blocks func.names
        (accounted.targets block original old was target (same ▸ written))
    · rw [written] at writes
      cases writes
      exact known

theorem accounted_of_derived {func : Func} (derived : Derived func) : func.Accounted := by
  induction derived with
  | linked ofModule => exact Func.accounted_ofModule ofModule
  | lowered before ih => exact accounted_lower ih
  | named before stem type ih => exact Func.accounted_newTemp ih stem type

/-! ## States in step -/

/-- The states of two runs when one makes the calls and the other has them lowered.
The names that were in use at the beginning have the same values, and the first
run knows no others. -/
private structure Alike (used : List String) (state lowered : State V M) : Prop where
  known : ∀ name, InUse used name → lowered.env name = state.env name
  unknown : ∀ name, ¬InUse used name → state.env name = none
  memory : lowered.memory = state.memory
  blocks : lowered.blocks = state.blocks
  effects : lowered.effects = state.effects.filter (!isFused ·)

variable {state lowered : State V M}

private theorem alike_env (alike : Alike used state lowered) {name : Name} {v : V}
    (read : state.env name = some v) : lowered.env name = some v := by
  have known : InUse used name := by
    by_contra unknown
    rw [alike.unknown name unknown] at read
    cases read
  rw [alike.known name known, read]

private theorem alike_operand (alike : Alike used state lowered) (value : Value) (v : V)
    (read : machine.operand state.env value = some v) :
    machine.operand lowered.env (id value) = some v := by
  cases named : value.name? with
  | none => simpa only [Machine.operand, named, id_eq] using read
  | some name =>
    simp only [Machine.operand, named, id_eq] at read ⊢
    exact alike_env alike read

private theorem alike_define (alike : Alike used state lowered) {name : Name}
    (inUse : InUse used name) (value : V) :
    Alike used (state.define name value) (lowered.define name value) where
  known := by
    intro other known
    by_cases same : other = name
    · subst same
      simp [State.define]
    · simpa [State.define, Function.update_of_ne same] using alike.known other known
  unknown := by
    intro other unknown
    have different : other ≠ name := fun same => unknown (same ▸ inUse)
    simpa [State.define, Function.update_of_ne different] using alike.unknown other unknown
  memory := alike.memory
  blocks := by rw [State.blocks_define, State.blocks_define, alike.blocks]
  effects := by rw [State.effects_define, State.effects_define, alike.effects]

private theorem alike_defineAll (alike : Alike used state lowered) {writes : List (Name × V)}
    (inUse : ∀ write ∈ writes, InUse used write.1) :
    Alike used (state.defineAll writes) (lowered.defineAll writes) := by
  induction writes generalizing state lowered with
  | nil => exact alike
  | cons write rest ih =>
    have first := alike_define alike (inUse write List.mem_cons_self) write.2
    exact ih first fun other member => inUse other (List.mem_cons_of_mem _ member)

/-- A product is made on one side only. -/
private theorem alike_product (alike : Alike used state lowered) {product : Name}
    (new : ¬InUse used product) (value : V) : Alike used state (lowered.define product value) where
  known := by
    intro name known
    have different : name ≠ product := fun same => new (same ▸ known)
    simpa [State.define, Function.update_of_ne different] using alike.known name known
  unknown := alike.unknown
  memory := alike.memory
  blocks := by rw [State.blocks_define, alike.blocks]
  effects := by rw [State.effects_define, alike.effects]

/-- Stores and calls that are not lowered are made on both sides, the others on one. -/
private theorem alike_seen (alike : Alike used state lowered) (memory : M) (seen : List (Event V))
    (effects : ∀ event ∈ seen, event.isEffect = true) :
    Alike used { state with memory, history := state.history ++ seen }
      { lowered with memory, history := lowered.history ++ seen.filter (!isFused ·) } where
  known := alike.known
  unknown := alike.unknown
  memory := rfl
  blocks := by
    have none : ∀ event ∈ seen, event.block? = none := by
      intro event member
      have effect := effects event member
      cases event with
      | enter => cases effect
      | define | store | call | invoke => rfl
    have invisible : seen.filterMap Event.block? = [] := List.filterMap_eq_nil_iff.mpr none
    have others : (seen.filter (!isFused ·)).filterMap Event.block? = [] :=
      List.filterMap_eq_nil_iff.mpr fun event member => none event (List.mem_of_mem_filter member)
    have before := alike.blocks
    simp only [State.blocks] at before
    simp only [State.blocks, List.filterMap_append, invisible, others, before]
  effects := by
    have all : seen.filter Event.isEffect = seen := List.filter_eq_self.mpr effects
    have others : (seen.filter (!isFused ·)).filter Event.isEffect = seen.filter (!isFused ·) :=
      List.filter_eq_self.mpr fun event member => effects event (List.mem_of_mem_filter member)
    have before := alike.effects
    simp only [State.effects] at before
    simp only [State.effects, List.filter_append, all, others, before]

/-! ## Following a run -/

private theorem seen_not_fused {source : Option Label} {env : Env V} {memory : M} {instr : Instr}
    {result : Outcome V M} (ran : machine.outcome source env memory instr = some result)
    (plain : call? instr = none) : ∀ event ∈ result.seen, isFused event = false := by
  intro event seen
  unfold isFused
  split
  · rename_i type callee a b c
    obtain ⟨target, args, rfl, read⟩ := Machine.outcome_call_seen ran seen
    have three := (Machine.arguments_length read).symm
    obtain ⟨⟨_, _⟩, ⟨_, _⟩, ⟨_, _⟩, rfl⟩ := List.length_eq_three.mp three
    by_contra begins
    rw [Bool.not_eq_false] at begins
    simp only [call?, begins] at plain
    cases plain
  · rfl

/-- An instruction that is not lowered does the same on both sides. -/
private theorem alike_step {source : Option Label} {instr : Instr} {next : State V M}
    (alike : Alike used state lowered) (plain : call? instr = none)
    (inUse : ∀ target, instr.target? = some target → target.name.spelling ∈ used)
    (ran : machine.step source state instr = some next) :
    ∃ next', machine.step source lowered instr = some next' ∧ Alike used next next' := by
  simp only [Machine.step, Option.map_eq_some_iff] at ran
  obtain ⟨result, did, rfl⟩ := ran
  have same : machine.outcome source lowered.env state.memory instr = some result := by
    simpa using Machine.outcome_mapped (f := id) (alike_operand alike) did
  obtain ⟨target, effects⟩ := Machine.outcome_shape did
  refine ⟨lowered.after result, by simp only [Machine.step, alike.memory, same, Option.map_some], ?_⟩
  have kept : result.seen.toList.filter (!isFused ·) = result.seen.toList := by
    refine List.filter_eq_self.mpr fun event member => ?_
    rw [seen_not_fused did plain event (by simpa using member)]
    rfl
  have seen := alike_seen alike result.memory result.seen.toList (by simpa using effects)
  rw [kept] at seen
  refine alike_defineAll seen fun write member => .inr ?_
  have written : result.written = some write := by simpa using member
  rw [written, Option.map_some] at target
  obtain ⟨temp, writes, named⟩ := Option.map_eq_some_iff.mp target.symm
  exact named ▸ inUse temp writes

/-- A call leaves what its product and sum leave. -/
private theorem alike_call {source : Option Label} {instr : Instr} {call : Call} {product : Temp}
    {next : State V M} (fuses : Fuses machine) (alike : Alike used state lowered)
    (found : call? instr = some call) (inUse : call.target.name.spelling ∈ used)
    (new : ¬InUse used product.name) (ran : machine.step source state instr = some next) :
    ∃ next', (FusedMultiplyAdd.lowered call product).foldlM (machine.step source) lowered = some next' ∧
      Alike used next next' := by
  obtain ⟨callee, aType, bType, cType, rfl, begins⟩ := call_eq_some_iff.mp found
  simp only [Machine.step, Machine.outcome, Option.bind_eq_bind, Option.map_eq_some_iff,
    Option.bind_eq_some_iff, Option.pure_def, Option.some.injEq, Machine.arguments_cons,
    Machine.arguments_nil] at ran
  obtain ⟨_, ⟨_, ⟨a, readA, _, ⟨b, readB, _, ⟨c, readC, _, ends, rfl⟩, rfl⟩, rfl⟩, _, answered, rfl⟩,
    rfl⟩ := ran
  cases ends
  rw [fuses _ _ _ _ _ _ _ _ _ begins] at answered
  simp only [Option.bind_eq_some_iff, Option.map_eq_some_iff] at answered
  obtain ⟨value, multiplied, sum, added, rfl⟩ := answered
  have fused : isFused (.call call.type callee [(aType, a), (bType, b), (cType, c)]) = true := begins
  have seen := alike_seen alike state.memory
    [.call call.type callee [(aType, a), (bType, b), (cType, c)]] (by simp [Event.isEffect])
  have unseen : ({ lowered with memory := state.memory } : State V M) = lowered := by
    rw [← alike.memory]
  rw [List.filter_cons_of_neg (by simp [fused]), List.filter_nil, List.append_nil, unseen] at seen
  have multiplies : machine.step source lowered (.arith product .fmul call.type call.a call.b) =
      some (lowered.define product.name value) :=
    Machine.step_arith (alike_operand alike _ _ readA) (alike_operand alike _ _ readB)
      (alike.memory ▸ multiplied)
  have withProduct := alike_product seen new value
  have adds : machine.step source (lowered.define product.name value)
      (.arith call.target .fadd call.type (.temp product) call.c) =
      some ((lowered.define product.name value).define call.target.name sum) :=
    Machine.step_arith (by simp [Machine.operand, Value.name?, Value.temp?, State.define])
      (alike_operand withProduct _ _ readC) (withProduct.memory ▸ added)
  refine ⟨_, ?_, alike_define withProduct (.inr inUse) sum⟩
  simp only [FusedMultiplyAdd.lowered, List.foldlM_cons, List.foldlM_nil, Option.bind_eq_bind,
    multiplies, adds, Option.bind_some, Option.pure_def]

/-- The instructions of a block, each call lowered with a product of its own. -/
private theorem alike_steps {source : Option Label} {instrs : List Instr} {names : NameSupply}
    {final : State V M} (fuses : Fuses machine) (alike : Alike used state lowered)
    (wider : used ⊆ names.used)
    (inUse : ∀ instr ∈ instrs, ∀ target, instr.target? = some target →
      target.name.spelling ∈ used)
    (ran : instrs.foldlM (machine.step source) state = some final) :
    ∃ final', (lowerInstrs names instrs).value.1.foldlM (machine.step source) lowered =
      some final' ∧ Alike used final final' := by
  induction instrs generalizing state lowered names with
  | nil =>
    cases ran
    exact ⟨lowered, rfl, alike⟩
  | cons instr rest ih =>
    simp only [List.foldlM_cons, Option.bind_eq_bind, Option.bind_eq_some_iff] at ran
    obtain ⟨next, first, later⟩ := ran
    have here := inUse instr List.mem_cons_self
    have others := fun other member => inUse other (List.mem_cons_of_mem instr member)
    cases found : call? instr with
    | none =>
      obtain ⟨next', step, together⟩ := alike_step alike found here first
      obtain ⟨final', steps, atEnd⟩ := ih together wider others later
      rw [lowerInstrs_kept found]
      exact ⟨final', by simp only [List.foldlM_cons, step, Option.bind_eq_bind, Option.bind_some,
        steps], atEnd⟩
    | some call =>
      have target : instr.target? = some call.target := by
        obtain ⟨_, _, _, _, rfl, _⟩ := call_eq_some_iff.mp found
        rfl
      have new : ¬InUse used (names.fresh "fmul" call.type).1.name := by
        rintro (global | old)
        · cases global
        · exact NameSupply.fresh_unused names "fmul" call.type (wider old)
      obtain ⟨next', steps, together⟩ := alike_call fuses alike found (here _ target) new first
      have grown : used ⊆ (names.fresh "fmul" call.type).2.used := fun spelling old =>
        (NameSupply.mem_used_fresh names "fmul" call.type).mpr (.inr (wider old))
      obtain ⟨final', more, atEnd⟩ := ih together grown others later
      rw [lowerInstrs_call found]
      exact ⟨final', by simp only [List.foldlM_append, steps, Option.bind_eq_bind,
        Option.bind_some, more], atEnd⟩

private theorem alike_runBlock {source : Option Label} {after : List String}
    {block result : Block} {next : Config V M} (fuses : Fuses machine)
    (alike : Alike used state lowered) (lowers : LowersTo used after block result)
    (inUse : ∀ instr ∈ block.body, ∀ target, instr.target? = some target →
      target.name.spelling ∈ used)
    (ran : machine.runBlock source state block = some next) :
    ∃ next', machine.runBlock source lowered result = some next' ∧
      next'.control = next.control ∧ Alike used next.state next'.state := by
  obtain ⟨names, wider, rfl, -⟩ := lowers
  obtain ⟨values, taken, final, steps, terminator, ends, control, left, rfl⟩ :=
    Machine.runBlock_eq_some_iff.mp ran
  have entered : Alike used (state.enter block.label) (lowered.enter block.label) := by
    refine ⟨alike.known, alike.unknown, alike.memory, ?_, ?_⟩
    · have before := alike.blocks
      simp only [State.blocks] at before
      simp only [State.blocks, State.enter, List.filterMap_append, before]
    · have before := alike.effects
      simp only [State.effects] at before
      simp [State.effects, State.enter, List.filter_append, before, Event.isEffect]
  have written : ∀ write ∈ values, InUse used write.1 := by
    intro write member
    have named : write.1 ∈ block.phis.map (·.target.name) :=
      Machine.phiValues_names taken ▸ List.mem_map_of_mem member
    obtain ⟨phi, inside, same⟩ := List.mem_map.mp named
    exact .inr (same ▸ inUse (.phi phi)
      (List.mem_append_left _ (List.mem_map_of_mem inside)) phi.target rfl)
  have taken' : machine.phiValues (lowered.enter block.label).env source block.phis =
      some values := by
    simpa using Machine.phiValues_mapped (f := id) (alike_operand entered) taken
  obtain ⟨final', steps', together⟩ := alike_steps fuses (alike_defineAll entered written) wider
    (fun instr member => inUse instr (List.mem_append_right _ member)) steps
  have left' : machine.leave final'.env block.label terminator = some control := by
    simpa using Machine.leave_mapped (f := id) (alike_operand together) left
  refine ⟨⟨control, final'⟩, ?_, rfl, together⟩
  exact Machine.runBlock_eq_some_iff.mpr
    ⟨values, taken', final', steps', terminator, ends, control, left', rfl⟩

/-- Two runs between the same two blocks, one with the calls and one with them lowered. -/
private def Together (used : List String) (config lowered : Config V M) : Prop :=
  lowered.control = config.control ∧ Alike used config.state lowered.state

private theorem alike_advance {func : Func} {config lowered next : Config V M}
    (fuses : Fuses machine) (accounted : func.Accounted)
    (together : Together func.names.used config lowered)
    (ran : machine.advance func config = some next) :
    ∃ next', machine.advance (lower func).value.1 lowered = some next' ∧
      Together func.names.used next next' := by
  obtain ⟨control, alike⟩ := together
  have pairs := lowerBlocks_each func.blocks func.names
  cases place : config.control with
  | entry =>
    simp only [Machine.advance, place, Option.bind_eq_some_iff] at ran
    obtain ⟨block, first, did⟩ := ran
    obtain ⟨result, first', lowers⟩ := head_lowered pairs first
    have first'' : (lower func).value.1.blocks.head? = some result := first'
    obtain ⟨next', does, follows⟩ := alike_runBlock fuses alike lowers
      (accounted.targets block (List.mem_of_mem_head? first)) did
    exact ⟨next', by simp only [Machine.advance, control, place, first'', Option.bind_some, does],
      follows⟩
  | edge source target =>
    simp only [Machine.advance, place, Option.bind_eq_some_iff] at ran
    obtain ⟨block, found, did⟩ := ran
    obtain ⟨result, found', lowers⟩ := find_lowered pairs found
    obtain ⟨next', does, follows⟩ := alike_runBlock fuses alike lowers
      (accounted.targets block (List.mem_of_find?_eq_some found)) did
    have found'' : (lower func).value.1.blocks.find? (·.label = target) = some result := found'
    exact ⟨next', by simp only [Machine.advance, control, place, found'', Option.bind_some, does],
      follows⟩
  | returned value =>
    simp only [Machine.advance, place, Option.some.injEq] at ran
    subst ran
    exact ⟨lowered, by simp only [Machine.advance, control, place], control, alike⟩

/-! ## From the beginning -/

/-- A product writes no name that is in use. -/
theorem product_writes {name : Name} {names : NameSupply} (inUse : InUse names.used name)
    (type : Ty) (a b : Value) :
    (Instr.arith (names.fresh "fmul" type).1 .fmul type a b).writes name = false := by
  simpa [Instr.writes, Instr.target?] using fresh_ne_used inUse "fmul" type

/-- A sum writes what the call wrote that was lowered to it. -/
theorem sum_writes {instr : Instr} (found : call? instr = some call) (value : Value) (name : Name) :
    (Instr.arith call.target .fadd call.type value call.c).writes name = instr.writes name := by
  obtain ⟨_, _, _, _, rfl, -⟩ := call_eq_some_iff.mp found
  rfl

/-- Lowering defines no name that is in use, but for what its calls defined. -/
theorem lowerInstrs_writes {name : Name} {names : NameSupply} (inUse : InUse names.used name)
    (instrs : List Instr) :
    (lowerInstrs names instrs).value.1.any (·.writes name) = instrs.any (·.writes name) := by
  induction instrs generalizing names with
  | nil => rfl
  | cons instr rest ih =>
    cases found : call? instr with
    | none => rw [lowerInstrs_kept found, List.any_cons, List.any_cons, ih inUse]
    | some call =>
      rw [lowerInstrs_call found]
      simp only [lowered, List.cons_append, List.nil_append, List.any_cons, product_writes inUse,
        sum_writes found, ih (inUse_fresh inUse "fmul" call.type), Bool.false_or]

private theorem lowerBlocks_define {before after : List String} {blocks results : List Block}
    (pairs : List.Forall₂ (LowersTo before after) blocks results) {name : Name}
    (inUse : InUse before name) :
    results.any (·.defines name) = blocks.any (·.defines name) := by
  induction pairs with
  | nil => rfl
  | @cons block result _ _ lowers _ ih =>
    have same : result.defines name = block.defines name := by
      obtain ⟨names, wider, rfl, -⟩ := lowers
      simp only [Block.defines, Block.body, List.any_append,
        lowerInstrs_writes (inUse_wider inUse wider)]
    rw [List.any_cons, List.any_cons, same, ih]

/-- Of the names in use, lowering defines those that were defined before. -/
theorem defines_lower {func : Func} {name : Name} (inUse : InUse func.names.used name) :
    (lower func).value.1.defines name = func.defines name :=
  lowerBlocks_define (lowerBlocks_each func.blocks func.names) inUse

private theorem alike_start {func : Func} (accounted : func.Accounted) (arguments : List V)
    (addresses : String → Option V) (memory : M) :
    Alike func.names.used (func.start arguments addresses memory).state
      ((lower func).value.1.start arguments addresses memory).state where
  known := by
    intro name _
    have defines : name.isGlobal = true →
        (lower func).value.1.blocks.any (·.defines name) = func.blocks.any (·.defines name) :=
      fun global => defines_lower (.inl global)
    have params : (lower func).value.1.params = func.params := rfl
    simp only [Func.start, Func.entryEnv, params]
    cases global : name.isGlobal with
    | true => rw [defines global]
    | false => simp
  unknown := by
    intro name unknown
    have isLocal : name.isGlobal = false := Bool.eq_false_iff.mpr fun global => unknown (.inl global)
    have unbound : (func.params.zip arguments).find? (·.1.name = name) = none := by
      refine List.find?_eq_none.mpr fun pair member => ?_
      have known := accounted.parameters pair.1 (List.of_mem_zip member).1
      have apart : pair.1.name ≠ name := fun same => unknown (.inr (same ▸ known))
      simpa using apart
    simp [Func.start, Func.entryEnv, unbound, isLocal]
  memory := rfl
  blocks := rfl
  effects := rfl

private theorem accounted_inUse {func : Func} (accounted : func.Accounted) {name : Name}
    (mentioned : (∃ param ∈ func.params, param.name = name) ∨
      ∃ block ∈ func.blocks, block.defines name = true) : InUse func.names.used name := by
  rcases mentioned with ⟨param, member, rfl⟩ | ⟨block, member, defines⟩
  · exact .inr (accounted.parameters param member)
  · obtain ⟨instr, inside, writes⟩ := List.any_eq_true.mp defines
    obtain ⟨target, written, rfl⟩ := Instr.writes_iff.mp writes
    exact .inr (accounted.targets block member instr inside target written)

/-- Lowering keeps every run on a machine whose intrinsic functions multiply and
add. The lowered function enters the same blocks and returns the same value, makes
the same stores and calls but for those that were lowered, and between any two
blocks every parameter and every temporary that the function defines has the
value that it had before. -/
theorem lowering_keeps_runs {func : Func} {arguments : List V} {addresses : String → Option V}
    {memory : M} {run : Nat → Config V M} (derived : Derived func) (fuses : Fuses machine)
    (isRun : machine.IsRun func (func.start arguments addresses memory) run) :
    let result := (lower func).value.1
    ∃ run', machine.IsRun result (result.start arguments addresses memory) run' ∧
      ∀ n, (run' n).control = (run n).control ∧
        (run' n).state.blocks = (run n).state.blocks ∧
        (run' n).state.effects = (run n).state.effects.filter (!isFused ·) ∧
        (run' n).state.memory = (run n).state.memory ∧
        ∀ name, ((∃ param ∈ func.params, param.name = name) ∨
            ∃ block ∈ func.blocks, block.defines name = true) →
          (run' n).state.env name = (run n).state.env name := by
  intro result
  have accounted := accounted_of_derived derived
  have started : Together func.names.used (func.start arguments addresses memory)
      (result.start arguments addresses memory) :=
    ⟨rfl, alike_start accounted arguments addresses memory⟩
  obtain ⟨run', follows, together⟩ := Machine.run_followed (Together func.names.used)
    isRun started fun n config related => alike_advance fuses accounted related (isRun.advances n)
  refine ⟨run', follows, fun n => ?_⟩
  obtain ⟨control, alike⟩ := together n
  exact ⟨control, alike.blocks, alike.effects, alike.memory,
    fun name mentioned => alike.known name (accounted_inUse accounted mentioned)⟩

/-- A function that calls the intrinsic twice. The second call writes one of its own
operands, and a name that a product might have had is taken. -/
def twiceFused : Module.Function where
  name := "twice"
  returnType := .float
  params := [.ofLocal "x" .float, .ofLocal "y" .float]
  blocks := [
    { label := "entry", phis := [],
      instrs := [.call (some (.ofLocal "r" .float)) .float "llvm.fmuladd.f32"
        [(.float, .temp (.ofLocal "x" .float)), (.float, .temp (.ofLocal "y" .float)),
          (.float, .temp (.ofLocal "x" .float))]],
      terminator := .jump "again" },
    { label := "again", phis := [],
      instrs := [
        .call (some (.ofLocal "r" .float)) .float "llvm.fmuladd.f32"
          [(.float, .temp (.ofLocal "r" .float)), (.float, .temp (.ofLocal "y" .float)),
            (.float, .temp (.ofLocal "r" .float))],
        .arith (.ofLocal "fmul.1" .float) .fadd .float (.temp (.ofLocal "r" .float))
          (.temp (.ofLocal "y" .float))],
      terminator := .ret (some (.temp (.ofLocal "fmul.1" .float))) }]

/-- The lowered function still returns the same value. -/
theorem twiceFused_returns : ∃ func, Func.ofModule twiceFused = .ok func ∧
    ∃ run, integerMachine.IsRun (lower func).value.1
        ((lower func).value.1.start [2, 3] (fun _ => none) ()) run ∧
      (run 2).control = .returned (some 35) ∧ (run 2).state.effects = [] ∧
      (run 2).state.env ⟨"r", false⟩ = some 32 := by
  obtain ⟨func, linked, returns, writes⟩ : ∃ func, Func.ofModule twiceFused = .ok func ∧
      (integerMachine.runFor func (func.start [2, 3] (fun _ => none) ()) 2).map
        (fun config => (config.control, config.state.effects.filter (!isFused ·),
          config.state.env ⟨"r", false⟩)) = some (.returned (some 35), [], some 32) ∧
      func.blocks.any (·.defines ⟨"r", false⟩) = true :=
    ⟨_, rfl, by decide +kernel, by decide⟩
  obtain ⟨final, ends, parts⟩ := Option.map_eq_some_iff.mp returns
  simp only [Prod.mk.injEq] at parts
  obtain ⟨returned, effects, value⟩ := parts
  obtain ⟨run, isRun, rfl, -⟩ := Machine.run_of_return ends returned
  have fuses : Fuses integerMachine := fun _ _ _ _ _ _ _ _ _ _ => rfl
  obtain ⟨run', isRun', same⟩ := lowering_keeps_runs (.linked linked) fuses isRun
  obtain ⟨control, -, kept, -, env⟩ := same 2
  refine ⟨func, linked, run', isRun', control.trans returned, kept.trans effects, ?_⟩
  rw [env ⟨"r", false⟩ (.inr (List.any_eq_true.mp writes)), value]

end KernelGuard.FusedMultiplyAdd
