import KernelGuard.Proofs.DefinitionErasure
import Mathlib.Algebra.GroupWithZero.Nat

/-! What substitution and erasure do to a whole function. The rules for a substitution carry the
number of operands that are replaced, one rule for each kind of instruction; the function and
the count that they lead to are the ones that are computed. Erasure takes the definitions of a
temporary from the first block that has one and from no other. -/
namespace KernelGuard

/-! ## The rules of a substitution -/

/-- A list changed item by item. The counts of the items add up. -/
inductive Each {α : Type} (change : α → α → Nat → Prop) : List α → List α → Nat → Prop
  | nil : Each change [] [] 0
  | cons (head : change a b m) (tail : Each change as bs n) :
    Each change (a :: as) (b :: bs) (m + n)

/-- An operand before and after a value is handed to the readers of a name. -/
inductive Value.Substituted (name : Name) (value : Value) : Value → Value → Nat → Prop
  | read (type : Ty) : Substituted name value (.temp ⟨name, type⟩) value 1
  | other (temp : Temp) (different : temp.name ≠ name) :
    Substituted name value (.temp temp) (.temp temp) 0
  | constant (fixed : operand.isConstant = true) : Substituted name value operand operand 0

section
variable (name : Name) (value : Value)

/-- An instruction before and after a value is handed to the readers of a name. -/
inductive Instr.Substituted : Instr → Instr → Nat → Prop
  | arith (left : Value.Substituted name value lhs lhs' m)
      (right : Value.Substituted name value rhs rhs' n) :
    Substituted (.arith target op type lhs rhs) (.arith target op type lhs' rhs') (m + n)
  | compare (left : Value.Substituted name value lhs lhs' m)
      (right : Value.Substituted name value rhs rhs' n) :
    Substituted (.compare target kind predicate type lhs rhs)
      (.compare target kind predicate type lhs' rhs') (m + n)
  | convert (changed : Value.Substituted name value operand operand' n) :
    Substituted (.convert target op source operand result)
      (.convert target op source operand' result) n
  | load (changed : Value.Substituted name value address address' n) :
    Substituted (.load target type address) (.load target type address') n
  | store (stored : Value.Substituted name value operand operand' m)
      (place : Value.Substituted name value address address' n) :
    Substituted (.store operand address) (.store operand' address') (m + n)
  | elementPtr (place : Value.Substituted name value address address' m)
      (distance : Value.Substituted name value offset offset' n) :
    Substituted (.elementPtr target type address offset)
      (.elementPtr target type address' offset') (m + n)
  | call (changed : Each (fun arg arg' n =>
        arg'.1 = arg.1 ∧ Value.Substituted name value arg.2 arg'.2 n) args args' n) :
    Substituted (.call target type callee args) (.call target type callee args') n
  | phi (changed : Each (fun source source' n =>
        source'.2 = source.2 ∧ Value.Substituted name value source.1 source'.1 n)
        sources sources' n) :
    Substituted (.phi ⟨target, type, sources⟩) (.phi ⟨target, type, sources'⟩) n
  | jump : Substituted (.jump label) (.jump label) 0
  | branch (changed : Value.Substituted name value condition condition' n) :
    Substituted (.branch type condition onTrue onFalse) (.branch type condition' onTrue onFalse) n
  | retVoid : Substituted (.ret none) (.ret none) 0
  | ret (changed : Value.Substituted name value operand operand' n) :
    Substituted (.ret (some operand)) (.ret (some operand')) n

/-- A block before and after: phis, plain instructions and the terminator change, and neither
the label nor an edge does. -/
inductive Block.Substituted : Block → Block → Nat → Prop
  | mk (phis : Each (fun phi phi' => Instr.Substituted name value (.phi phi) (.phi phi'))
        block.phis phis' p)
      (instrs : Each (Instr.Substituted name value) block.instrs instrs' i)
      (terminator : Each (Instr.Substituted name value)
        block.terminator.toList terminator'.toList t) :
    Substituted block { block with phis := phis', instrs := instrs', terminator := terminator' }
      (p + i + t)

/-- A function before and after: only blocks change. -/
inductive Func.Substituted : Func → Func → Nat → Prop
  | mk (blocks : Each (Block.Substituted name value) func.blocks blocks' n) :
    Substituted func { func with blocks := blocks' } n

end

/-! ## What the rules lead to -/

variable {name : Name} {value : Value} {n : Nat}

/-- Items that each lead to one result lead to one list. -/
theorem each_iff {α : Type} {change : α → α → Nat → Prop} {f : α → α} {count : α → Nat}
    (item : ∀ a b n, change a b n ↔ b = f a ∧ n = count a) {as bs : List α} :
    Each change as bs n ↔ bs = as.map f ∧ n = (as.map count).sum := by
  constructor
  · intro changed
    induction changed with
    | nil => exact ⟨rfl, rfl⟩
    | cons head tail ih =>
      obtain ⟨rfl, rfl⟩ := (item _ _ _).mp head
      obtain ⟨rfl, rfl⟩ := ih
      exact ⟨rfl, rfl⟩
  · rintro ⟨rfl, rfl⟩
    induction as with
    | nil => exact .nil
    | cons a as ih => exact .cons ((item _ _ _).mpr ⟨rfl, rfl⟩) ih

/-- How many reads of a name an operand is. -/
def Value.occurrences (operand : Value) (name : Name) : Nat :=
  if operand.name? = some name then 1 else 0

theorem Value.substituted_iff {before after : Value} :
    Substituted name value before after n ↔
      after = substitute name value before ∧ n = before.occurrences name := by
  constructor
  · intro changed
    cases changed with
    | read type => exact ⟨(if_pos rfl).symm, (if_pos rfl).symm⟩
    | other temp different =>
      have unread : (Value.temp temp).name? ≠ some name := mt Option.some.inj different
      exact ⟨(if_neg unread).symm, (if_neg unread).symm⟩
    | constant fixed =>
      have unread : before.name? ≠ some name := by
        rw [Value.name?, Option.isNone_iff_eq_none.mp fixed]
        exact Option.some_ne_none name |>.symm
      exact ⟨(if_neg unread).symm, (if_neg unread).symm⟩
  · rintro ⟨rfl, rfl⟩
    by_cases reads : before.name? = some name
    · rw [Value.substitute, Value.occurrences, if_pos reads, if_pos reads]
      cases before with
      | temp temp =>
        obtain rfl : temp.name = name := Option.some.inj reads
        exact .read temp.type
      | _ => cases reads
    · rw [Value.substitute, Value.occurrences, if_neg reads, if_neg reads]
      cases before with
      | temp temp => exact .other temp fun same => reads (congrArg some same)
      | _ => exact .constant rfl

namespace Instr

private theorem args_iff {args args' : List (Ty × Value)} :
    Each (fun arg arg' n => arg'.1 = arg.1 ∧ Value.Substituted name value arg.2 arg'.2 n)
        args args' n ↔
      args' = args.map (fun arg => (arg.1, Value.substitute name value arg.2)) ∧
        n = (args.map fun arg => arg.2.occurrences name).sum := by
  refine each_iff fun arg arg' n => ?_
  rw [Value.substituted_iff, Prod.ext_iff, and_assoc]

private theorem sources_iff {sources sources' : List (Value × Label)} :
    Each (fun source source' n =>
        source'.2 = source.2 ∧ Value.Substituted name value source.1 source'.1 n)
        sources sources' n ↔
      sources' = sources.map (fun source => (Value.substitute name value source.1, source.2)) ∧
        n = (sources.map fun source => source.1.occurrences name).sum := by
  refine each_iff fun source source' n => ?_
  rw [Value.substituted_iff, Prod.ext_iff, ← and_assoc, and_comm (b := source'.1 = _)]

theorem occurrences_eq_sum (instr : Instr) (name : Name) :
    instr.occurrences name = (instr.operands.map (Value.occurrences · name)).sum := by
  rw [occurrences]
  induction instr.operands with
  | nil => rfl
  | cons operand rest ih =>
    rw [List.countP_cons, ih, List.map_cons, List.sum_cons, Nat.add_comm, Value.occurrences]
    simp only [decide_eq_true_eq]

/-- Each kind of instruction has its own rule, and all of them do what is done to the operands. -/
theorem substituted_iff {before after : Instr} :
    Substituted name value before after n ↔
      after = before.substitute name value ∧ n = before.occurrences name := by
  rw [occurrences_eq_sum]
  constructor
  · intro changed
    cases changed with
    | arith left right | compare left right | store left right | elementPtr left right =>
      obtain ⟨rfl, rfl⟩ := Value.substituted_iff.mp left
      obtain ⟨rfl, rfl⟩ := Value.substituted_iff.mp right
      exact ⟨rfl, rfl⟩
    | convert changed | load changed | branch changed | ret changed =>
      obtain ⟨rfl, rfl⟩ := Value.substituted_iff.mp changed
      exact ⟨rfl, rfl⟩
    | call changed =>
      obtain ⟨rfl, rfl⟩ := args_iff.mp changed
      exact ⟨rfl, by simp [operands, Function.comp_def]⟩
    | phi changed =>
      obtain ⟨rfl, rfl⟩ := sources_iff.mp changed
      exact ⟨rfl, by simp [operands, Phi.operands, Function.comp_def]⟩
    | jump | retVoid => exact ⟨rfl, rfl⟩
  · rintro ⟨rfl, rfl⟩
    have operand : ∀ operand : Value, Value.Substituted name value operand
        (Value.substitute name value operand) (operand.occurrences name) :=
      fun _ => Value.substituted_iff.mpr ⟨rfl, rfl⟩
    cases before with
    | arith target op type lhs rhs => exact .arith (operand lhs) (operand rhs)
    | compare target kind predicate type lhs rhs => exact .compare (operand lhs) (operand rhs)
    | convert target op source value result => exact .convert (operand value)
    | load target type address => exact .load (operand address)
    | store value address => exact .store (operand value) (operand address)
    | elementPtr target type address offset => exact .elementPtr (operand address) (operand offset)
    | call target type callee args =>
      exact .call (args_iff.mpr ⟨rfl, by simp [operands, Function.comp_def]⟩)
    | phi phi =>
      exact .phi (sources_iff.mpr ⟨rfl, by simp [operands, Phi.operands, Function.comp_def]⟩)
    | jump target => exact .jump
    | branch type condition onTrue onFalse => exact .branch (operand condition)
    | ret value =>
      cases value with
      | none => exact .retVoid
      | some value => exact .ret (operand value)

end Instr

namespace Block

/-- How many operands of a block read a name. -/
def occurrences (block : Block) (name : Name) : Nat :=
  (block.code.map (Instr.occurrences · name)).sum

private theorem phis_iff {phis phis' : List Phi} :
    Each (fun phi phi' => Instr.Substituted name value (.phi phi) (.phi phi')) phis phis' n ↔
      phis' = phis.map (Phi.mapOperands (Value.substitute name value)) ∧
        n = (phis.map fun phi => (Instr.phi phi).occurrences name).sum := by
  refine each_iff fun phi phi' n => ?_
  rw [Instr.substituted_iff, Instr.substitute, Instr.mapOperands, Instr.phi.injEq]

theorem substituted_iff {before after : Block} :
    Substituted name value before after n ↔
      after = before.mapOperands (Value.substitute name value) ∧ n = before.occurrences name := by
  have instrs : ∀ {instrs instrs' : List Instr} {n : Nat},
      Each (Instr.Substituted name value) instrs instrs' n ↔
        instrs' = instrs.map (Instr.substitute name value) ∧
          n = (instrs.map (Instr.occurrences · name)).sum :=
    each_iff (f := Instr.substitute name value) fun _ _ _ => Instr.substituted_iff
  have total : before.occurrences name =
      (before.phis.map fun phi => (Instr.phi phi).occurrences name).sum +
        (before.instrs.map (Instr.occurrences · name)).sum +
        (before.terminator.toList.map (Instr.occurrences · name)).sum := by
    simp only [occurrences, code, body, List.map_append, List.sum_append, List.map_map,
      Function.comp_def]
  rw [total]
  constructor
  · rintro ⟨phis, plain, ends⟩
    obtain ⟨rfl, rfl⟩ := phis_iff.mp phis
    obtain ⟨rfl, rfl⟩ := instrs.mp plain
    obtain ⟨last, rfl⟩ := instrs.mp ends
    obtain rfl : _ = before.terminator.map (Instr.substitute name value) := by
      simpa [← Option.toList_map] using congrArg List.head? last
    exact ⟨rfl, rfl⟩
  · rintro ⟨rfl, rfl⟩
    refine .mk (phis_iff.mpr ⟨rfl, rfl⟩) (instrs.mpr ⟨rfl, rfl⟩) (instrs.mpr ⟨?_, rfl⟩)
    exact Option.toList_map ..

theorem defines_iff {block : Block} : block.defines name = true ↔
    ∃ instr ∈ block.body, instr.target?.map (·.name) = some name := by
  simp [defines, Instr.writes]

theorem withoutDefinition_eq (block : Block) (name : Name) :
    block.withoutDefinition name = { block with
      phis := block.phis.filter (·.target.name ≠ name)
      instrs := block.instrs.filter (·.target?.map (·.name) ≠ some name) } := by
  have phi (phi : Phi) : (!(Instr.phi phi).writes name) = decide (phi.target.name ≠ name) := by
    simp [Instr.writes, Instr.target?]
  have instr (instr : Instr) :
      (!instr.writes name) = decide (instr.target?.map (·.name) ≠ some name) := by
    rw [Instr.writes, decide_not]
  simp only [withoutDefinition, phi, instr]

end Block

namespace Func

/-- Everything that a function reads, with repetitions: block by block, and in a block the phis,
the plain instructions and the terminator. -/
def reads (func : Func) : List Temp :=
  func.blocks.flatMap fun block => block.code.flatMap Instr.reads

theorem reads_eq_filter_map (func : Func) : func.reads = func.operands.filterMap Value.temp? := by
  simp only [reads, operands, List.filterMap_flatMap]
  rfl

/-- Counting operands comes to counting reads. -/
theorem occurrences_eq_count_reads (func : Func) (name : Name) :
    func.occurrences name = func.reads.countP (·.name = name) := by
  rw [reads_eq_filter_map, occurrences, Value.count_reads]

theorem occurrences_eq_sum (func : Func) (name : Name) :
    func.occurrences name = (func.blocks.map (Block.occurrences · name)).sum := by
  simp only [occurrences, operands, Block.occurrences, List.countP_flatMap, Function.comp_def]
  rfl

theorem substituted_iff {before after : Func} :
    Substituted name value before after n ↔
      after = before.substitute name value ∧ n = before.occurrences name := by
  have blocks : ∀ {blocks' : List Block} {n : Nat},
      Each (Block.Substituted name value) before.blocks blocks' n ↔
        blocks' = before.blocks.map (Block.mapOperands (Value.substitute name value)) ∧
          n = (before.blocks.map (Block.occurrences · name)).sum :=
    each_iff (f := Block.mapOperands _) fun _ _ _ => Block.substituted_iff
  rw [occurrences_eq_sum]
  constructor
  · rintro ⟨changed⟩
    obtain ⟨rfl, rfl⟩ := blocks.mp changed
    exact ⟨rfl, rfl⟩
  · rintro ⟨rfl, rfl⟩
    exact .mk (blocks.mpr ⟨rfl, rfl⟩)

theorem operands_substitute (func : Func) (name : Name) (value : Value) :
    (func.substitute name value).operands =
      func.operands.map (Value.substitute name value) := by
  simp only [operands, substitute, List.flatMap_map, Block.code_mapOperands,
    Instr.operands_mapOperands, List.map_flatMap]

/-- What is handed out is read wherever the name was, and nothing else comes to read the name. -/
theorem occurrences_substitute (func : Func) (name : Name) (value : Value) :
    (func.substitute name value).occurrences name =
      if value.name? = some name then func.occurrences name else 0 := by
  rw [occurrences, operands_substitute, List.countP_map]
  split
  · rename_i same
    refine List.countP_congr fun operand _ => ?_
    by_cases reads : operand.name? = some name <;> simp [Value.substitute, reads, same]
  · rename_i different
    refine List.countP_eq_zero.mpr fun operand _ => ?_
    by_cases reads : operand.name? = some name <;> simp [Value.substitute, reads, different]

/-! ## Definitions that are erased -/

/-- A function before and after a block, the first one that writes a name, loses the phis and
the plain instructions that write it. -/
inductive Erased (name : Name) (block : Block) : Func → Func → Prop
  | mk (front back : List Block) (place : func.blocks = front ++ block :: back)
      (unwritten : ∀ earlier ∈ front, ∀ instr ∈ earlier.body,
        instr.target?.map (·.name) ≠ some name)
      (written : ∃ instr ∈ block.body, instr.target?.map (·.name) = some name) :
    Erased name block func { func with
      blocks := front ++ { block with
        phis := block.phis.filter (·.target.name ≠ name)
        instrs := block.instrs.filter (·.target?.map (·.name) ≠ some name) } :: back }

theorem eraseIn_append {front back : List Block} {block : Block}
    (unwritten : ∀ earlier ∈ front, earlier.defines name = false)
    (written : block.defines name = true) :
    eraseIn name (front ++ block :: back) =
      some (front ++ block.withoutDefinition name :: back) := by
  induction front with
  | nil => rw [List.nil_append, eraseIn, if_pos written, List.nil_append]
  | cons first rest ih =>
    obtain ⟨here, later⟩ := List.forall_mem_cons.mp unwritten
    rw [List.cons_append, eraseIn, if_neg (by simp [here]), ih later, Option.map_some,
      List.cons_append]

variable {func erased : Func} {block : Block}

/-- The search for a definition and erasure stop at the block of the rule. -/
theorem erase_of_erased (rule : Erased name block func erased) :
    func.definingBlock? name = some block ∧ func.eraseDefinition? name = some erased := by
  obtain ⟨front, back, place, unwritten, written⟩ := rule
  have here := Block.defines_iff.mpr written
  have before : ∀ earlier ∈ front, earlier.defines name = false := by
    refine fun earlier inside => eq_false_of_ne_true fun defined => ?_
    obtain ⟨instr, member, target⟩ := Block.defines_iff.mp defined
    exact unwritten earlier inside instr member target
  constructor
  · exact List.find?_eq_some_iff_append.mpr ⟨here, front, back, place, by simpa using before⟩
  · rw [eraseDefinition?, place, eraseIn_append before here, Block.withoutDefinition_eq,
      Option.map_some]

theorem erased_of_defining (found : func.definingBlock? name = some block) :
    ∃ erased, Erased name block func erased := by
  obtain ⟨written, front, back, place, unwritten⟩ := List.find?_eq_some_iff_append.mp found
  refine ⟨_, .mk front back place ?_ (Block.defines_iff.mp written)⟩
  intro earlier inside instr member target
  have defined := Block.defines_iff.mpr ⟨instr, member, target⟩
  simpa [defined] using unwritten earlier inside

theorem eraseDefinition?_isSome (func : Func) (name : Name) :
    (func.eraseDefinition? name).isSome = (func.definingBlock? name).isSome := by
  rw [eraseDefinition?, Option.isSome_map, eraseIn_isSome, definingBlock?, Bool.eq_iff_iff,
    List.find?_isSome, List.any_eq_true]

theorem eraseDefinition?_iff : func.eraseDefinition? name = some erased ↔
    ∃ block, func.definingBlock? name = some block ∧ Erased name block func erased := by
  constructor
  · intro erases
    obtain ⟨block, found⟩ : ∃ block, func.definingBlock? name = some block := by
      rw [← Option.isSome_iff_exists, ← eraseDefinition?_isSome, erases, Option.isSome_some]
    obtain ⟨other, rule⟩ := erased_of_defining found
    obtain rfl : other = erased := Option.some.inj ((erase_of_erased rule).2.symm.trans erases)
    exact ⟨block, found, rule⟩
  · rintro ⟨block, -, rule⟩
    exact (erase_of_erased rule).2

/-- A name is replaced by a value as the rules say. Substitution changes every read of the name,
as many as are counted, and afterwards the name is read only where the value is that name
itself. Erasure succeeds where the search for a definition does, and takes the definitions from
the block that was found. Replacing a definition fails where nothing writes the name, and is
otherwise erasure with substitution behind it. -/
theorem substitution_and_erasure_exact (func : Func) (name : Name) (value : Value) :
    ((∀ changed n, func.Substituted name value changed n ↔
        changed = func.substitute name value ∧ n = func.occurrences name) ∧
      func.occurrences name = func.reads.countP (·.name = name) ∧
      (func.substitute name value).reads.countP (·.name = name) =
        if value.name? = some name then func.occurrences name else 0) ∧
    ((func.eraseDefinition? name).isSome = (func.definingBlock? name).isSome ∧
      ∀ erased, func.eraseDefinition? name = some erased ↔
        ∃ block, func.definingBlock? name = some block ∧ Erased name block func erased) ∧
    ((func.replaceDefinition? name value = none ↔
        ∀ block ∈ func.blocks, ∀ instr ∈ block.body, instr.target?.map (·.name) ≠ some name) ∧
      ∀ replaced, func.replaceDefinition? name value = some replaced ↔
        ∃ erased n, func.eraseDefinition? name = some erased ∧
          erased.Substituted name value replaced n) := by
  refine ⟨⟨fun _ _ => substituted_iff, occurrences_eq_count_reads func name, ?_⟩,
    ⟨eraseDefinition?_isSome func name, fun _ => eraseDefinition?_iff⟩, ?_, ?_⟩
  · rw [← occurrences_eq_count_reads, occurrences_substitute]
  · rw [← Option.not_isSome_iff_eq_none, replaceDefinition?_isSome, defines_iff]
    simp [Instr.writes]
  · intro replaced
    simp only [replaceDefinition?, Option.map_eq_some_iff, substituted_iff]
    constructor
    · rintro ⟨erased, erases, rfl⟩
      exact ⟨erased, _, erases, rfl, rfl⟩
    · rintro ⟨erased, _, erases, rfl, -⟩
      exact ⟨erased, erases, rfl⟩

end Func

end KernelGuard
