import KernelGuard.Flow.Substitution

/-! Erasing definitions and handing constants to their readers. A definition is erased from
the first block that has one, and then every reader in the function gets the constant. Both
steps touch one temporary only, so folding two temporaries comes to the same in either
order. -/
namespace KernelGuard

namespace Value

/-- Two constants replace two temporaries in either order. -/
theorem substitute_comm (different : first ≠ second) (constant : value.isConstant = true)
    (constant' : other.isConstant = true) (operand : Value) :
    substitute first value (substitute second other operand) =
      substitute second other (substitute first value operand) := by
  have unread : ∀ {constant : Value} (name : Name), constant.isConstant = true →
      constant.name? ≠ some name := by
    intro constant name fixed read
    rw [Value.isConstant, Option.isNone_iff_eq_none] at fixed
    simp [name?, fixed] at read
  by_cases reads : operand.name? = some first
  · have apart : operand.name? ≠ some second := by simp [reads, different]
    simp [substitute, reads, different, unread second constant]
  · by_cases reads' : operand.name? = some second
    · simp [substitute, reads', different.symm, unread first constant']
    · simp [substitute, reads, reads']

/-- Counting the operands that read a name comes to counting the temporaries with it. -/
theorem count_reads (operands : List Value) (name : Name) :
    operands.countP (·.name? = some name) =
      (operands.filterMap temp?).countP (·.name = name) := by
  rw [List.countP_filterMap]
  congr 1
  funext operand
  cases operand <;> simp [name?, temp?]

end Value

namespace Phi

@[simp] theorem mapOperands_id : mapOperands id = id := by
  funext phi
  simp [mapOperands]

theorem mapOperands_mapOperands (f g : Value → Value) (phi : Phi) :
    (phi.mapOperands f).mapOperands g = phi.mapOperands (g ∘ f) := by
  simp [mapOperands]

end Phi

namespace Instr

@[simp] theorem mapOperands_id (instr : Instr) : instr.mapOperands id = instr := by
  cases instr <;> simp [mapOperands]

theorem writes_iff {instr : Instr} {name : Name} :
    instr.writes name = true ↔ ∃ target, instr.target? = some target ∧ target.name = name := by
  simp [writes]

@[simp] theorem target_mapOperands (f : Value → Value) (instr : Instr) :
    (instr.mapOperands f).target? = instr.target? := by
  cases instr <;> rfl

@[simp] theorem writes_mapOperands (f : Value → Value) (instr : Instr) (name : Name) :
    (instr.mapOperands f).writes name = instr.writes name := by
  simp only [writes, target_mapOperands]

theorem operands_mapOperands (f : Value → Value) (instr : Instr) :
    (instr.mapOperands f).operands = instr.operands.map f := by
  cases instr with
  | ret value => cases value <;> rfl
  | _ => simp [mapOperands, operands, Phi.mapOperands, Phi.operands]

@[simp] theorem targets_mapOperands (f : Value → Value) (instr : Instr) :
    (instr.mapOperands f).targets = instr.targets := by
  cases instr <;> rfl

theorem mapOperands_mapOperands (f g : Value → Value) (instr : Instr) :
    (instr.mapOperands f).mapOperands g = instr.mapOperands (g ∘ f) := by
  cases instr <;> simp [mapOperands, Phi.mapOperands_mapOperands]

end Instr

namespace Block

theorem mapOperands_mapOperands (f g : Value → Value) (block : Block) :
    (block.mapOperands f).mapOperands g = block.mapOperands (g ∘ f) := by
  simp [mapOperands, Function.comp_def, Phi.mapOperands_mapOperands,
    Instr.mapOperands_mapOperands]

theorem code_mapOperands (block : Block) (f : Value → Value) :
    (block.mapOperands f).code = block.code.map (Instr.mapOperands f) := by
  cases ends : block.terminator <;>
    simp [code, body, mapOperands, Function.comp_def, Instr.mapOperands, ends]

theorem body_mapOperands (block : Block) (f : Value → Value) :
    (block.mapOperands f).body = block.body.map (Instr.mapOperands f) := by
  simp [body, mapOperands, Function.comp_def, Instr.mapOperands]

theorem body_withoutDefinition (block : Block) (name : Name) :
    (block.withoutDefinition name).body = block.body.filter (!·.writes name) := by
  simp [body, withoutDefinition, List.filter_append, List.filter_map, Function.comp_def]

private theorem phi_writes_mapOperands (f : Value → Value) (phi : Phi) (name : Name) :
    (Instr.phi (phi.mapOperands f)).writes name = (Instr.phi phi).writes name := rfl

@[simp] theorem defines_mapOperands (block : Block) (f : Value → Value) (name : Name) :
    (block.mapOperands f).defines name = block.defines name := by
  simp [defines, body, mapOperands, List.any_append, List.any_map, Function.comp_def, phi_writes_mapOperands]

theorem withoutDefinition_mapOperands (block : Block) (f : Value → Value) (name : Name) :
    (block.mapOperands f).withoutDefinition name =
      (block.withoutDefinition name).mapOperands f := by
  simp [withoutDefinition, mapOperands, List.filter_map, Function.comp_def, phi_writes_mapOperands]

theorem withoutDefinition_comm (block : Block) (first second : Name) :
    (block.withoutDefinition first).withoutDefinition second =
      (block.withoutDefinition second).withoutDefinition first := by
  simp only [withoutDefinition, List.filter_filter, Bool.and_comm]

/-- Erasing the definitions of one temporary leaves those of the others. -/
theorem defines_withoutDefinition (block : Block) (different : other ≠ name) :
    (block.withoutDefinition name).defines other = block.defines other := by
  rw [defines, defines, body_withoutDefinition, List.any_filter]
  congr 1
  funext instr
  by_cases writes : instr.writes other = true
  · have target : instr.target?.map (·.name) = some other := by simpa [Instr.writes] using writes
    simp [Instr.writes, target, different]
  · simp [writes]

theorem size_withoutDefinition_lt {block : Block} (defines : block.defines name = true) :
    (block.withoutDefinition name).size < block.size := by
  have erased : (block.body.filter (!·.writes name)).length < block.body.length := by
    obtain ⟨instr, member, writes⟩ := List.any_eq_true.mp defines
    exact List.length_filter_lt_length_iff_exists.mpr ⟨instr, member, by simp [writes]⟩
  simp only [size, code, body_withoutDefinition, List.length_append]
  have same : (block.withoutDefinition name).terminator = block.terminator := rfl
  rw [same]
  omega

@[simp] theorem size_mapOperands (block : Block) (f : Value → Value) :
    (block.mapOperands f).size = block.size := by
  simp only [size, code, body, mapOperands, List.length_append, List.length_map]
  cases block.terminator <;> rfl

end Block

namespace Func

/-- The blocks without the definitions of a temporary in the first block that has one. -/
def erased (name : Name) (blocks : List Block) : List Block := (eraseIn name blocks).getD blocks

theorem eraseIn_isSome (name : Name) (blocks : List Block) :
    (eraseIn name blocks).isSome = blocks.any (·.defines name) := by
  induction blocks with
  | nil => rfl
  | cons block rest ih =>
    rw [eraseIn, List.any_cons]
    by_cases defines : block.defines name = true
    · simp [defines]
    · simp [defines, ih]

theorem erased_cons (name : Name) (block : Block) (rest : List Block) :
    erased name (block :: rest) =
      if block.defines name then block.withoutDefinition name :: rest
      else block :: erased name rest := by
  by_cases defines : block.defines name = true
  · simp [erased, eraseIn, defines]
  · cases found : eraseIn name rest <;> simp [erased, eraseIn, defines, found]

/-- Every block is left as it was, or without the definitions. -/
theorem mem_erased {name : Name} {blocks : List Block} {block : Block}
    (member : block ∈ erased name blocks) :
    ∃ origin ∈ blocks, block = origin ∨ block = origin.withoutDefinition name := by
  induction blocks with
  | nil => simp [erased, eraseIn] at member
  | cons first rest ih =>
    rw [erased_cons] at member
    split at member
    · rcases List.mem_cons.mp member with rfl | later
      · exact ⟨first, List.mem_cons_self, .inr rfl⟩
      · exact ⟨block, List.mem_cons_of_mem _ later, .inl rfl⟩
    · rcases List.mem_cons.mp member with rfl | later
      · exact ⟨block, List.mem_cons_self, .inl rfl⟩
      · obtain ⟨origin, inside, which⟩ := ih later
        exact ⟨origin, List.mem_cons_of_mem _ inside, which⟩

theorem length_erased (name : Name) (blocks : List Block) :
    (erased name blocks).length = blocks.length := by
  induction blocks with
  | nil => rfl
  | cons block rest ih =>
    rw [erased_cons]
    split <;> simp [ih]

theorem erased_mapOperands (name : Name) (f : Value → Value) (blocks : List Block) :
    erased name (blocks.map (Block.mapOperands f)) = (erased name blocks).map (Block.mapOperands f) := by
  induction blocks with
  | nil => rfl
  | cons block rest ih =>
    rw [List.map_cons, erased_cons, erased_cons, Block.defines_mapOperands, ih]
    by_cases defines : block.defines name = true
    · simp [defines, Block.withoutDefinition_mapOperands]
    · simp [defines]

theorem defined_in_erased {name other : Name} (different : other ≠ name) (blocks : List Block) :
    (erased name blocks).any (·.defines other) = blocks.any (·.defines other) := by
  induction blocks with
  | nil => rfl
  | cons block rest ih =>
    rw [erased_cons]
    by_cases defines : block.defines name = true
    · simp [defines, Block.defines_withoutDefinition block different]
    · simp [defines, ih]

theorem erased_comm (first second : Name) (blocks : List Block) :
    erased first (erased second blocks) = erased second (erased first blocks) := by
  by_cases same : first = second
  · rw [same]
  induction blocks with
  | nil => rfl
  | cons block rest ih =>
    rw [erased_cons second, erased_cons first]
    by_cases defines : block.defines first = true <;>
      by_cases defines' : block.defines second = true
    · simp [defines, defines', erased_cons, Block.defines_withoutDefinition block same,
        Block.defines_withoutDefinition block (Ne.symm same), Block.withoutDefinition_comm]
    · simp [defines, defines', erased_cons, Block.defines_withoutDefinition block (Ne.symm same)]
    · simp [defines, defines', erased_cons, Block.defines_withoutDefinition block same]
    · simp [defines, defines', erased_cons, ih]

/-- Whether something in the function defines a temporary. -/
def defines (func : Func) (name : Name) : Bool := func.blocks.any (·.defines name)

theorem defines_iff {func : Func} {name : Name} : func.defines name = true ↔
    ∃ block ∈ func.blocks, ∃ instr ∈ block.body, instr.writes name = true := by
  simp [defines, Block.defines]

/-- The definition of a temporary is found in some block. -/
theorem definition_inside {func : Func} {name : Name}
    (defined : func.definition? name = some definition) :
    ∃ block ∈ func.blocks, definition ∈ block.body ∧ definition.writes name = true := by
  obtain ⟨block, member, found⟩ := List.exists_of_findSome?_eq_some defined
  exact ⟨block, member, List.mem_of_find?_eq_some found,
    List.find?_some (p := (Instr.writes · name)) found⟩

/-- The function with the definition of a temporary folded to true. One that does not
define the temporary stays as it is. -/
def folded (func : Func) (name : Name) : Func :=
  (func.replaceDefinition? name (.bool true)).getD func

/-- The instructions of the function, block by block. -/
def code (func : Func) : List (List Instr) := func.blocks.map Block.code

variable (func : Func) (name : Name)

theorem replaceDefinition?_isSome (value : Value) :
    (func.replaceDefinition? name value).isSome = func.defines name := by
  simp [replaceDefinition?, eraseDefinition?, eraseIn_isSome, defines]

variable {func name} {other : Name}

theorem folded_of_undefined (undefined : func.defines name = false) : func.folded name = func := by
  have none : func.replaceDefinition? name (.bool true) = none := by
    simpa [undefined] using func.replaceDefinition?_isSome name (.bool true)
  rw [folded, none, Option.getD_none]

theorem folded_of_defined (defined : func.defines name = true) :
    func.folded name = { func with
      blocks := (erased name func.blocks).map (Block.mapOperands (Value.substitute name (.bool true))) } := by
  obtain ⟨blocks, found⟩ : ∃ blocks, eraseIn name func.blocks = some blocks := by
    rw [← Option.isSome_iff_exists, eraseIn_isSome]
    exact defined
  simp [folded, replaceDefinition?, eraseDefinition?, found, substitute, erased]

theorem defines_folded (different : other ≠ name) :
    (func.folded name).defines other = func.defines other := by
  by_cases defined : func.defines name = true
  · rw [folded_of_defined defined, defines, defines, List.any_map]
    simpa [Function.comp_def] using defined_in_erased different func.blocks
  · rw [folded_of_undefined (eq_false_of_ne_true defined)]

/-- Two temporaries are folded in either order. -/
theorem folded_comm (func : Func) (first second : Name) :
    (func.folded first).folded second = (func.folded second).folded first := by
  by_cases same : first = second
  · rw [same]
  have first' : (func.folded first).defines second = func.defines second :=
    defines_folded (Ne.symm same)
  have second' : (func.folded second).defines first = func.defines first :=
    defines_folded same
  by_cases defined : func.defines first = true <;> by_cases defined' : func.defines second = true
  · rw [folded_of_defined (first'.trans defined'), folded_of_defined (second'.trans defined),
      folded_of_defined defined, folded_of_defined defined']
    simp only [erased_mapOperands, List.map_map, erased_comm first second]
    congr 2
    funext block
    have swapped : Value.substitute second (.bool true) ∘ Value.substitute first (.bool true) =
        Value.substitute first (.bool true) ∘ Value.substitute second (.bool true) :=
      funext fun operand => Value.substitute_comm (Ne.symm same) rfl rfl operand
    simp only [Function.comp_apply, Block.mapOperands_mapOperands, swapped]
  · rw [folded_of_undefined (first'.trans (eq_false_of_ne_true defined')),
      folded_of_undefined (eq_false_of_ne_true defined')]
  · rw [folded_of_undefined (second'.trans (eq_false_of_ne_true defined)),
      folded_of_undefined (eq_false_of_ne_true defined)]
  · rw [folded_of_undefined (eq_false_of_ne_true defined),
      folded_of_undefined (eq_false_of_ne_true defined'),
      folded_of_undefined (eq_false_of_ne_true defined)]

/-- Folding a temporary that is defined takes an instruction away. -/
theorem code_folded_ne (defined : func.defines name = true) :
    (func.folded name).code ≠ func.code := by
  have shorter : ∀ blocks : List Block, blocks.any (·.defines name) = true →
      ((erased name blocks).map Block.size).sum < (blocks.map Block.size).sum := by
    intro blocks defined
    induction blocks with
    | nil => cases defined
    | cons block rest ih =>
      rw [erased_cons]
      by_cases defines : block.defines name = true
      · have smaller := Block.size_withoutDefinition_lt defines
        simp only [defines, if_true, List.map_cons, List.sum_cons]
        omega
      · have smaller := ih (by simpa [defines] using defined)
        simp only [defines, Bool.false_eq_true, if_false, List.map_cons, List.sum_cons]
        omega
  have sizes : ∀ func : Func, (func.code.map List.length).sum = (func.blocks.map Block.size).sum := by
    intro func
    rw [code, List.map_map]
    rfl
  intro same
  have total := shorter func.blocks defined
  rw [← sizes func, ← same, sizes, folded_of_defined defined] at total
  simp only [List.map_map, Function.comp_def, Block.size_mapOperands] at total
  exact absurd total (Nat.lt_irrefl _)

end Func

end KernelGuard
