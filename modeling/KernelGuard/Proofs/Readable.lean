import KernelGuard.Draft.Meaning
import KernelGuard.Flow.Func
import KernelGuard.Proofs.Reading
import Mathlib.Data.List.Forall2

/-! What the grammar promises of a module. Every name that is read has a spelling, every
global stands for an address, a phi has sources and a returned value has a type; the type
check and the types that drafts are given say the rest. Such a module, if its floating
constants are finite, can be written and read again. -/
namespace KernelGuard

open Reader Lexeme

/-! ## What can be written and read again -/

/-- Names are spelled, and a global is an address. -/
structure Temp.Readable (temp : Temp) : Prop where
  spelled : Spelled temp.name.spelling
  address : temp.name.isGlobal = true → temp.type = .ptr

/-- Constants are finite. -/
def Value.Readable : Value → Prop
  | .temp t => t.Readable
  | value => value.isFinite = true

/-- A temporary that may be written. -/
structure Temp.IsTarget (temp : Temp) : Prop where
  spelled : Spelled temp.name.spelling
  isLocal : temp.name.isGlobal = false

/-- What the kinds of instructions ask for beyond types, operands, targets and labels. -/
def Instr.Complete : Instr → Prop
  | .call target type callee _ => Spelled callee ∧ ∀ temp ∈ target, temp.type = type
  | .phi p => p.target.type = p.type ∧ p.sources ≠ [] ∧ ∀ source ∈ p.sources, Spelled source.2
  | .ret value => ∀ v ∈ value, v.type ≠ .void
  | _ => True

structure Instr.Readable (instr : Instr) : Prop where
  wellTyped : instr.wellTyped = true
  operands : ∀ value ∈ instr.operands, value.Readable
  target : ∀ temp ∈ instr.target?, temp.IsTarget
  labels : ∀ label ∈ instr.targets, Spelled label
  complete : instr.Complete

/-- The phis, the plain instructions and the end of a block are in their places. -/
structure Module.Block.Readable (block : Module.Block) : Prop where
  label : Spelled block.label
  phis : ∀ phi ∈ block.phis, (Instr.phi phi).Readable
  instrs : ∀ instr ∈ block.instrs,
    instr.Readable ∧ instr.isPhi = false ∧ instr.isSequential = true
  terminator : block.terminator.Readable ∧ block.terminator.isSequential = false

structure Module.Function.Readable (function : Module.Function) : Prop where
  name : Spelled function.name
  params : ∀ param ∈ function.params, param.IsTarget
  nonempty : function.blocks ≠ []
  blocks : ∀ block ∈ function.blocks, block.Readable

/-- The initial value of a global is a constant of its type. -/
structure Global.Readable (global : Global) : Prop where
  name : Spelled global.name
  initial : ∀ value ∈ global.initial,
    value.Readable ∧ value.isConstant = true ∧ value.type = global.type

structure Module.Readable (module : Module) : Prop where
  globals : ∀ global ∈ module.globals, global.Readable
  functions : ∀ function ∈ module.functions, function.Readable

/-- No operand in a block is a floating constant that is infinite or no number. -/
def Module.Block.Finite (block : Module.Block) : Prop :=
  ∀ instr ∈ (Func.blockOf block).code, ∀ value ∈ instr.operands, value.isFinite = true

structure Module.Finite (module : Module) : Prop where
  globals : ∀ global ∈ module.globals, ∀ value ∈ global.initial, value.isFinite = true
  functions : ∀ function ∈ module.functions, ∀ block ∈ function.blocks, block.Finite

/-! ## What drafts are made of -/

namespace Draft

def Form.Spelled : Form → Prop
  | .localName spelling | .globalName spelling => Lexeme.Spelled spelling
  | _ => True

/-- A number or a truth value. -/
def Form.IsConstant : Form → Prop
  | .localName _ | .globalName _ => False
  | _ => True

def TypedOperand.Spelled (typed : TypedOperand) : Prop := typed.operand.item.Spelled

structure Phi.Spelled (phi : Phi) : Prop where
  target : Lexeme.Spelled phi.target
  nonempty : phi.sources ≠ []
  sources : ∀ source ∈ phi.sources, source.1.item.Spelled ∧ Lexeme.Spelled source.2

def Instr.Spelled : Instr → Prop
  | .arith target _ _ lhs rhs | .compare target _ _ _ lhs rhs =>
    Lexeme.Spelled target ∧ lhs.item.Spelled ∧ rhs.item.Spelled
  | .convert target _ operand _ => Lexeme.Spelled target ∧ operand.Spelled
  | .load target _ address => Lexeme.Spelled target ∧ address.Spelled
  | .elementPtr target _ address offset =>
    Lexeme.Spelled target ∧ address.Spelled ∧ offset.Spelled
  | .call target _ callee args =>
    (∀ name ∈ target, Lexeme.Spelled name) ∧ Lexeme.Spelled callee ∧ ∀ arg ∈ args, arg.Spelled
  | .store value address => value.Spelled ∧ address.Spelled

def Terminator.Spelled : Terminator → Prop
  | .jump target => Lexeme.Spelled target
  | .branch condition onTrue onFalse =>
    condition.Spelled ∧ Lexeme.Spelled onTrue ∧ Lexeme.Spelled onFalse
  | .ret value => ∀ operand ∈ value, operand.Spelled ∧ operand.type ≠ .void

structure Block.Spelled (block : Block) : Prop where
  label : Lexeme.Spelled block.label
  phis : ∀ phi ∈ block.phis, phi.item.Spelled
  instrs : ∀ instr ∈ block.instrs, instr.item.Spelled
  terminator : block.terminator.item.Spelled

structure Function.Spelled (function : Function) : Prop where
  name : Lexeme.Spelled function.name
  params : ∀ param ∈ function.params, Lexeme.Spelled param.2
  nonempty : function.blocks ≠ []
  blocks : ∀ block ∈ function.blocks, block.Spelled

structure Global.Spelled (global : Global) : Prop where
  name : Lexeme.Spelled global.name
  initial : ∀ operand ∈ global.initial, operand.item.IsConstant

def Item.Spelled : Item → Prop
  | .global found => found.Spelled
  | .function found => found.Spelled

end Draft

/-! ## What readers give -/

namespace Reader

variable {α β : Type}

/-- Whatever a reader gives has a property. -/
def Gives (reader : Reader α) (property : α → Prop) : Prop :=
  ∀ text value rest, reader text = some (value, rest) → property value

theorem gives_any (reader : Reader α) : Gives reader fun _ => True := fun _ _ _ _ => trivial

theorem gives_pure {property : α → Prop} {value : α} (holds : property value) :
    Gives (pure value) property := by
  intro text found rest read
  cases read
  exact holds

theorem gives_bind {first : Reader α} {next : α → Reader β} {given : α → Prop}
    {property : β → Prop} (front : Gives first given)
    (behind : ∀ value, given value → Gives (next value) property) :
    Gives (first >>= next) property := by
  intro text value rest read
  change Reader.bind first next text = _ at read
  unfold Reader.bind at read
  split at read
  · rename_i found middle taken
    exact behind found (front _ _ _ taken) _ _ _ read
  · cases read

/-- What the first reader gives does not matter. -/
theorem gives_behind {first : Reader α} {next : α → Reader β} {property : β → Prop}
    (behind : ∀ value, Gives (next value) property) : Gives (first >>= next) property :=
  gives_bind (gives_any first) fun value _ => behind value

theorem gives_orElse {first second : Reader α} {property : α → Prop}
    (left : Gives first property) (right : Gives second property) :
    Gives (first.orElse second) property := by
  intro text value rest read
  unfold Reader.orElse at read
  split at read
  · rename_i found taken
    cases read
    exact left _ _ _ taken
  · exact right _ _ _ read

theorem gives_optional {reader : Reader α} {property : α → Prop} (each : Gives reader property) :
    Gives reader.optional fun found => ∀ value ∈ found, property value := by
  intro text found rest read
  unfold optional at read
  split at read
  · rename_i value middle taken
    cases read
    rintro _ ⟨⟩
    exact each _ _ _ taken
  · cases read
    simp

theorem gives_many {reader : Reader α} {property : α → Prop} (each : Gives reader property) :
    Gives reader.many fun values => ∀ value ∈ values, property value := by
  intro text values rest read
  rw [many, Option.some.injEq] at read
  fun_induction rowFrom reader text generalizing values rest with
  | case1 text value middle taken shorter values' remainder found ih =>
    cases read
    intro v member
    rcases List.mem_cons.mp member with rfl | later
    · exact each _ _ _ taken
    · exact ih _ _ found v later
  | case2 text value middle taken short =>
    cases read
    simp
  | case3 text refused =>
    cases read
    simp

end Reader

namespace Draft

theorem gives_spelling : Gives Lexeme.spelling Lexeme.Spelled := by
  have letters : Gives (takeWhile1 isNameChar) fun run =>
      run ≠ [] ∧ ∀ c ∈ run, isNameChar c = true := by
    intro text run rest read
    simp only [takeWhile1, mapped, takeWhile] at read
    split at read
    · cases read
    · rename_i nonempty
      cases read
      exact ⟨nonempty, List.all_eq_true.mp List.all_takeWhile⟩
  refine gives_bind letters fun run spelled => gives_pure ?_
  simpa [Lexeme.Spelled] using spelled

theorem gives_localName : Gives Lexeme.localName Lexeme.Spelled :=
  gives_behind fun _ => gives_spelling

theorem gives_globalName : Gives Lexeme.globalName Lexeme.Spelled :=
  gives_behind fun _ => gives_spelling

theorem gives_blockLabel : Gives Lexeme.blockLabel Lexeme.Spelled :=
  gives_behind fun _ => gives_bind gives_spelling fun _ spelled =>
    gives_behind fun _ => gives_pure spelled

theorem gives_marked {α : Type} {reader : Reader α} {property : α → Prop}
    (each : Gives reader property) : Gives (marked reader) fun found => property found.item :=
  gives_behind fun _ => gives_behind fun _ => gives_bind each fun _ holds => gives_pure holds

theorem gives_separated1 {α : Type} {reader : Reader α} {property : α → Prop}
    (each : Gives reader property) :
    Gives (separated1 reader) fun values => values ≠ [] ∧ ∀ value ∈ values, property value := by
  refine gives_bind each fun first holds => ?_
  refine gives_bind (gives_many (gives_behind fun _ => each)) fun more rest => gives_pure ?_
  exact ⟨List.cons_ne_nil _ _, List.forall_mem_cons.mpr ⟨holds, rest⟩⟩

theorem gives_separated {α : Type} {reader : Reader α} {property : α → Prop}
    (each : Gives reader property) :
    Gives (separated reader) fun values => ∀ value ∈ values, property value := by
  refine gives_orElse ?_ (gives_pure (by simp))
  intro text values rest read
  exact (gives_separated1 each _ _ _ read).2

theorem gives_constant : Gives constant Form.IsConstant := by
  refine gives_orElse (gives_behind ?_) (gives_behind fun _ => gives_pure trivial)
  rintro ⟨isInteger, numeral⟩
  cases isInteger <;> exact gives_pure trivial

theorem gives_operand : Gives operand fun operand => operand.item.Spelled := by
  refine gives_marked (gives_orElse ?_ (gives_orElse ?_ ?_))
  · intro text form rest read
    have isConstant := gives_constant _ _ _ read
    cases form <;> trivial
  · exact gives_bind gives_localName fun _ spelled => gives_pure spelled
  · exact gives_bind gives_globalName fun _ spelled => gives_pure spelled

theorem gives_typedOperand : Gives typedOperand TypedOperand.Spelled :=
  gives_behind fun _ => gives_bind gives_operand fun _ spelled => gives_pure spelled

theorem gives_operandPair :
    Gives operandPair fun pair => pair.2.1.item.Spelled ∧ pair.2.2.item.Spelled :=
  gives_behind fun _ => gives_bind gives_operand fun _ left => gives_behind fun _ =>
    gives_bind gives_operand fun _ right => gives_pure ⟨left, right⟩

theorem gives_call {target : Option String} (spelled : ∀ name ∈ target, Lexeme.Spelled name) :
    Gives (call target) Instr.Spelled :=
  gives_behind fun _ => gives_behind fun _ => gives_bind gives_globalName fun _ callee =>
    gives_behind fun _ => gives_bind (gives_separated gives_typedOperand) fun _ args =>
      gives_behind fun _ => gives_pure ⟨spelled, callee, args⟩

theorem gives_definition (spelled : Lexeme.Spelled target) :
    Gives (definition target) Instr.Spelled := by
  refine gives_orElse ?arith <| gives_orElse ?compare <| gives_orElse ?convert <|
    gives_orElse ?load <| gives_orElse ?elementPtr ?call
  case arith =>
    exact gives_behind fun _ => gives_bind gives_operandPair fun _ pair =>
      gives_pure ⟨spelled, pair.1, pair.2⟩
  case compare =>
    exact gives_behind fun _ => gives_behind fun _ => gives_bind gives_operandPair fun _ pair =>
      gives_pure ⟨spelled, pair.1, pair.2⟩
  case convert =>
    exact gives_behind fun _ => gives_bind gives_typedOperand fun _ operand =>
      gives_behind fun _ => gives_behind fun _ => gives_pure ⟨spelled, operand⟩
  case load =>
    exact gives_behind fun _ => gives_behind fun _ => gives_behind fun _ =>
      gives_bind gives_typedOperand fun _ address => gives_pure ⟨spelled, address⟩
  case elementPtr =>
    exact gives_behind fun _ => gives_behind fun _ => gives_behind fun _ =>
      gives_bind gives_typedOperand fun _ address => gives_behind fun _ =>
        gives_bind gives_typedOperand fun _ offset => gives_pure ⟨spelled, address, offset⟩
  case call =>
    refine gives_call ?_
    rintro _ ⟨⟩
    exact spelled

theorem gives_defined : Gives defined Lexeme.Spelled :=
  gives_bind gives_localName fun _ spelled => gives_behind fun _ => gives_pure spelled

theorem gives_instr : Gives instr Instr.Spelled := by
  refine gives_orElse ?defined (gives_orElse (gives_call (by simp)) ?store)
  case defined => exact gives_bind gives_defined fun _ spelled => gives_definition spelled
  case store =>
    exact gives_behind fun _ => gives_bind gives_typedOperand fun _ value =>
      gives_behind fun _ => gives_bind gives_typedOperand fun _ address =>
        gives_pure ⟨value, address⟩

theorem gives_phi : Gives phi Phi.Spelled := by
  have source : Gives phiSource fun source =>
      source.1.item.Spelled ∧ Lexeme.Spelled source.2 :=
    gives_behind fun _ => gives_bind gives_operand fun _ value => gives_behind fun _ =>
      gives_bind gives_localName fun _ label => gives_behind fun _ => gives_pure ⟨value, label⟩
  exact gives_bind gives_defined fun _ target => gives_behind fun _ => gives_behind fun _ =>
    gives_bind (gives_separated1 source) fun _ sources =>
      gives_pure ⟨target, sources.1, sources.2⟩

theorem gives_terminator : Gives terminator Terminator.Spelled := by
  have destination : Gives destination Lexeme.Spelled := gives_behind fun _ => gives_localName
  refine gives_orElse ?jump (gives_orElse ?branch ?ret)
  case jump =>
    exact gives_behind fun _ => gives_bind destination fun _ spelled => gives_pure spelled
  case branch =>
    exact gives_behind fun _ => gives_bind gives_typedOperand fun _ condition =>
      gives_behind fun _ => gives_bind destination fun _ onTrue => gives_behind fun _ =>
        gives_bind destination fun _ onFalse => gives_pure ⟨condition, onTrue, onFalse⟩
  case ret =>
    refine gives_behind fun _ => gives_behind fun type => ?_
    split
    · exact gives_pure (by simp [Terminator.Spelled])
    · rename_i other
      exact gives_bind gives_operand fun _ spelled =>
        gives_pure (by simpa [Terminator.Spelled] using ⟨spelled, other⟩)

theorem gives_block : Gives block Block.Spelled :=
  gives_bind gives_blockLabel fun _ label =>
    gives_bind (gives_many (gives_marked gives_phi)) fun _ phis =>
      gives_bind (gives_many (gives_marked gives_instr)) fun _ instrs =>
        gives_bind (gives_marked gives_terminator) fun _ terminator =>
          gives_pure ⟨label, phis, instrs, terminator⟩

theorem gives_function : Gives function Function.Spelled := by
  have param : Gives param fun param => Lexeme.Spelled param.2 :=
    gives_behind fun _ => gives_bind gives_localName fun _ spelled => gives_pure spelled
  have blocks : Gives (many1 block) fun blocks =>
      blocks ≠ [] ∧ ∀ block ∈ blocks, block.Spelled :=
    gives_bind gives_block fun _ first => gives_bind (gives_many gives_block) fun _ more =>
      gives_pure ⟨List.cons_ne_nil _ _, List.forall_mem_cons.mpr ⟨first, more⟩⟩
  exact gives_behind fun _ => gives_behind fun _ => gives_bind gives_globalName fun _ name =>
    gives_behind fun _ => gives_bind (gives_separated param) fun _ params =>
      gives_behind fun _ => gives_behind fun _ => gives_bind blocks fun _ blocks =>
        gives_behind fun _ => gives_pure ⟨name, params, blocks.1, blocks.2⟩

theorem gives_global : Gives global Global.Spelled :=
  gives_bind gives_globalName fun _ name => gives_behind fun _ => gives_behind fun _ =>
    gives_behind fun _ => gives_behind fun _ =>
      gives_bind (gives_optional (gives_marked gives_constant)) fun _ initial =>
        gives_pure ⟨name, initial⟩

/-- Every item of the draft of a text is spelled. -/
theorem ofText_spelled (read : ofText? text = some draft) : ∀ item ∈ draft, item.Spelled := by
  have item : Gives item Item.Spelled :=
    gives_orElse (gives_bind gives_global fun _ spelled => gives_pure spelled)
      (gives_bind gives_function fun _ spelled => gives_pure spelled)
  have whole : Gives whole fun items => ∀ item ∈ items, item.Spelled :=
    gives_bind (gives_many item) fun _ items => gives_behind fun _ => gives_behind fun _ =>
      gives_pure items
  obtain ⟨⟨items, rest⟩, taken, rfl⟩ := Option.map_eq_some_iff.mp read
  exact whole _ _ _ taken

end Draft

/-! ## What drafts stand for -/

theorem bind_gives {ε α β : Type} {first : Except ε α} {next : α → Except ε β} {result : β}
    (ran : (first >>= next) = .ok result) :
    ∃ value, first = .ok value ∧ next value = .ok result := by
  cases first with
  | error => cases ran
  | ok value => exact ⟨value, rfl, ran⟩

/-- A row that succeeds does so item by item. -/
theorem mapM_forall₂ {ε α β : Type} {list : List α} {f : α → Except ε β} {results : List β}
    (ran : list.mapM f = .ok results) : List.Forall₂ (fun a b => f a = .ok b) list results := by
  induction list generalizing results with
  | nil =>
    cases ran
    exact .nil
  | cons a list ih =>
    rw [List.mapM_cons] at ran
    obtain ⟨b, given, ran⟩ := bind_gives ran
    obtain ⟨more, rest, ran⟩ := bind_gives ran
    cases ran
    exact .cons given (ih rest)

theorem exists_paired {α β : Type} {related : α → β → Prop} {as : List α} {bs : List β}
    (pairs : List.Forall₂ related as bs) {a : α} (member : a ∈ as) : ∃ b ∈ bs, related a b := by
  induction pairs with
  | nil => cases member
  | cons here _ ih =>
    rcases List.mem_cons.mp member with rfl | later
    · exact ⟨_, List.mem_cons_self, here⟩
    · obtain ⟨b, inside, there⟩ := ih later
      exact ⟨b, List.mem_cons_of_mem _ inside, there⟩

theorem mapM_gives {ε α β : Type} {list : List α} {f : α → Except ε β} {results : List β}
    (ran : list.mapM f = .ok results) :
    results.length = list.length ∧ ∀ b ∈ results, ∃ a ∈ list, f a = .ok b :=
  have pairs := mapM_forall₂ ran
  ⟨pairs.length_eq.symm, fun _ member => exists_paired pairs.flip member⟩

/-- What each result keeps of its origin, a whole row keeps. -/
theorem mapM_keeps {ε α β γ : Type} {list : List α} {f : α → Except ε β} {results : List β}
    {view : β → γ} {origin : α → γ} (keeps : ∀ a b, f a = .ok b → view b = origin a)
    (ran : list.mapM f = .ok results) : results.map view = list.map origin := by
  have pairs := mapM_forall₂ ran
  clear ran
  induction pairs with
  | nil => rfl
  | cons given _ ih => rw [List.map_cons, List.map_cons, keeps _ _ given, ih]

namespace Draft

section
variable {type : Ty} {value : Value}

private theorem numeral_constant {numeral : String}
    (read : numeralValue? type numeral = some value) :
    value.isConstant = true ∧ value.type = type := by
  unfold numeralValue? at read
  split at read
  · split at read
    · cases read
      exact ⟨rfl, rfl⟩
    · split at read
      · cases read
        exact ⟨rfl, rfl⟩
      · cases read
  · obtain ⟨n, -, ranged⟩ := Option.bind_eq_some_iff.mp read
    unfold Value.ofInt32? at ranged
    split at ranged <;> cases ranged
    exact ⟨rfl, rfl⟩
  · obtain ⟨n, -, ranged⟩ := Option.bind_eq_some_iff.mp read
    unfold Value.ofInt64? at ranged
    split at ranged <;> cases ranged
    exact ⟨rfl, rfl⟩
  · obtain ⟨d, -, rfl⟩ := Option.map_eq_some_iff.mp read
    exact ⟨rfl, rfl⟩
  · obtain ⟨d, -, rfl⟩ := Option.map_eq_some_iff.mp read
    exact ⟨rfl, rfl⟩
  · cases read
  · cases read

/-- What a form stands for is a constant of the written type, a local at that type or a
global. -/
theorem form_cases {form : Form} (read : form.value type = .ok value) :
    (value.isConstant = true ∧ value.type = type) ∨
      (∃ name, form = .localName name ∧ value = .temp (.ofLocal name type)) ∨
        ∃ name, form = .globalName name ∧ value = .temp (.ofGlobal name) := by
  unfold Form.value at read
  split at read
  · split at read
    · rename_i found
      cases read
      exact .inl (numeral_constant found)
    · cases read
  · split at read
    · rename_i found
      cases read
      split at found
      · exact .inl (numeral_constant found)
      · cases found
    · cases read
  · split at read
    · rename_i same
      cases read
      exact .inl ⟨rfl, same.symm⟩
    · cases read
  · cases read
    exact .inr (.inl ⟨_, rfl, rfl⟩)
  · cases read
    exact .inr (.inr ⟨_, rfl, rfl⟩)

theorem operand_form {operand : Operand} (read : Operand.value type operand = .ok value) :
    operand.item.value type = .ok value := by
  unfold Operand.value at read
  split at read
  · rename_i found
    cases read
    exact found
  · cases read

/-- A value that an operand of a text stands for. -/
def Stands (value : Value) : Prop :=
  ∃ (type : Ty) (operand : Operand), Operand.value type operand = .ok value ∧ operand.item.Spelled

theorem stands_readable (stands : Stands value) (finite : value.isFinite = true) :
    value.Readable := by
  obtain ⟨type, operand, read, spelled⟩ := stands
  rcases form_cases (operand_form read) with ⟨constant, -⟩ | ⟨name, form, rfl⟩ | ⟨name, form, rfl⟩
  · cases value with
    | temp t => cases constant
    | bool value => exact finite
    | int value => exact finite
    | long value => exact finite
    | float value => exact finite
    | double value => exact finite
  · rw [form] at spelled
    exact ⟨spelled, fun isGlobal => by cases isGlobal⟩
  · rw [form] at spelled
    exact ⟨spelled, fun _ => rfl⟩

private theorem operand_not_void {operand : Operand}
    (read : Operand.value type operand = .ok value) (other : type ≠ .void) :
    value.type ≠ .void := by
  rcases form_cases (operand_form read) with ⟨-, rfl⟩ | ⟨name, -, rfl⟩ | ⟨name, -, rfl⟩
  · exact other
  · exact other
  · exact fun same => Ty.noConfusion same

theorem constant_meaning {operand : Operand}
    (read : Operand.value type operand = .ok value) (constant : operand.item.IsConstant) :
    value.isConstant = true ∧ value.type = type := by
  rcases form_cases (operand_form read) with found | ⟨name, form, -⟩ | ⟨name, form, -⟩
  · exact found
  · rw [form] at constant
    cases constant
  · rw [form] at constant
    cases constant

end

theorem checked_gives {mark : Nat} {instr passed : KernelGuard.Instr}
    (read : checked mark instr = .ok passed) : passed = instr ∧ instr.wellTyped = true := by
  unfold checked at read
  split at read
  · rename_i typed
    cases read
    exact ⟨rfl, typed⟩
  · cases read

/-- What the meaning of something spelled says apart from types. -/
structure Plain (instr : KernelGuard.Instr) : Prop where
  operands : ∀ value ∈ instr.operands, Stands value
  target : ∀ temp ∈ instr.target?, temp.IsTarget
  labels : ∀ label ∈ instr.targets, Lexeme.Spelled label
  complete : instr.Complete

theorem Plain.readable {instr : KernelGuard.Instr} (plain : Plain instr)
    (typed : instr.wellTyped = true)
    (finite : ∀ value ∈ instr.operands, value.isFinite = true) : instr.Readable where
  wellTyped := typed
  operands value member := stands_readable (plain.operands value member) (finite value member)
  target := plain.target
  labels := plain.labels
  complete := plain.complete

/-- A definition goes nowhere, and its target is a local. -/
private theorem Plain.of_definition {instr : KernelGuard.Instr} {name : String} {type : Ty}
    (target : instr.target? = some (.ofLocal name type)) (spelled : Lexeme.Spelled name)
    (nowhere : instr.targets = []) (operands : ∀ value ∈ instr.operands, Stands value)
    (complete : instr.Complete) : Plain instr where
  operands := operands
  target := by
    intro temp written
    obtain rfl : Temp.ofLocal name type = temp := Option.some.inj (target.symm.trans written)
    exact ⟨spelled, rfl⟩
  labels := by simp [nowhere]
  complete := complete

theorem instr_meaning {draft : Instr} {instr : KernelGuard.Instr}
    (read : draft.meaning = .ok instr) (spelled : draft.Spelled) :
    Plain instr ∧ instr.isPhi = false ∧ instr.isSequential = true := by
  cases draft with
  | arith target op type lhs rhs =>
    obtain ⟨left, leftRead, read⟩ := bind_gives read
    obtain ⟨right, rightRead, read⟩ := bind_gives read
    cases read
    obtain ⟨name, leftSpelled, rightSpelled⟩ := spelled
    refine ⟨.of_definition rfl name rfl ?_ trivial, rfl, rfl⟩
    simp only [KernelGuard.Instr.operands, List.forall_mem_cons]
    exact ⟨⟨_, _, leftRead, leftSpelled⟩, ⟨_, _, rightRead, rightSpelled⟩, by simp⟩
  | compare target kind predicate type lhs rhs =>
    obtain ⟨left, leftRead, read⟩ := bind_gives read
    obtain ⟨right, rightRead, read⟩ := bind_gives read
    cases read
    obtain ⟨name, leftSpelled, rightSpelled⟩ := spelled
    refine ⟨.of_definition rfl name rfl ?_ trivial, rfl, rfl⟩
    simp only [KernelGuard.Instr.operands, List.forall_mem_cons]
    exact ⟨⟨_, _, leftRead, leftSpelled⟩, ⟨_, _, rightRead, rightSpelled⟩, by simp⟩
  | convert target op operand result =>
    obtain ⟨value, valueRead, read⟩ := bind_gives read
    cases read
    obtain ⟨name, valueSpelled⟩ := spelled
    refine ⟨.of_definition rfl name rfl ?_ trivial, rfl, rfl⟩
    simp only [KernelGuard.Instr.operands, List.forall_mem_cons]
    exact ⟨⟨_, _, valueRead, valueSpelled⟩, by simp⟩
  | load target type address =>
    obtain ⟨value, valueRead, read⟩ := bind_gives read
    cases read
    obtain ⟨name, valueSpelled⟩ := spelled
    refine ⟨.of_definition rfl name rfl ?_ trivial, rfl, rfl⟩
    simp only [KernelGuard.Instr.operands, List.forall_mem_cons]
    exact ⟨⟨_, _, valueRead, valueSpelled⟩, by simp⟩
  | elementPtr target type address offset =>
    obtain ⟨pointer, pointerRead, read⟩ := bind_gives read
    obtain ⟨distance, distanceRead, read⟩ := bind_gives read
    cases read
    obtain ⟨name, pointerSpelled, distanceSpelled⟩ := spelled
    refine ⟨.of_definition rfl name rfl ?_ trivial, rfl, rfl⟩
    simp only [KernelGuard.Instr.operands, List.forall_mem_cons]
    exact ⟨⟨_, _, pointerRead, pointerSpelled⟩, ⟨_, _, distanceRead, distanceSpelled⟩, by simp⟩
  | call target type callee args =>
    obtain ⟨values, valuesRead, read⟩ := bind_gives read
    cases read
    obtain ⟨name, calleeSpelled, argsSpelled⟩ := spelled
    refine ⟨⟨?_, ?_, by simp [KernelGuard.Instr.targets], calleeSpelled, ?_⟩, rfl, rfl⟩
    · intro value member
      obtain ⟨pair, inside, rfl⟩ := List.mem_map.mp member
      obtain ⟨arg, written, given⟩ := (mapM_gives valuesRead).2 pair inside
      obtain ⟨value, valueRead, given⟩ := bind_gives given
      cases given
      exact ⟨_, _, valueRead, argsSpelled arg written⟩
    · intro temp written
      obtain ⟨spelling, present, rfl⟩ := Option.map_eq_some_iff.mp written
      exact ⟨name spelling present, rfl⟩
    · intro temp written
      obtain ⟨spelling, present, rfl⟩ := Option.map_eq_some_iff.mp written
      rfl
  | store value address =>
    obtain ⟨content, contentRead, read⟩ := bind_gives read
    obtain ⟨pointer, pointerRead, read⟩ := bind_gives read
    cases read
    obtain ⟨contentSpelled, pointerSpelled⟩ := spelled
    refine ⟨⟨?_, by simp [KernelGuard.Instr.target?], by simp [KernelGuard.Instr.targets], trivial⟩,
      rfl, rfl⟩
    simp only [KernelGuard.Instr.operands, List.forall_mem_cons]
    exact ⟨⟨_, _, contentRead, contentSpelled⟩, ⟨_, _, pointerRead, pointerSpelled⟩, by simp⟩

theorem phi_meaning {draft : Phi} {phi : KernelGuard.Phi} (read : draft.meaning = .ok phi)
    (spelled : draft.Spelled) : Plain (.phi phi) := by
  obtain ⟨sources, sourcesRead, read⟩ := bind_gives read
  cases read
  obtain ⟨length, each⟩ := mapM_gives sourcesRead
  have origin : ∀ source ∈ sources, Stands source.1 ∧ Lexeme.Spelled source.2 := by
    intro source member
    obtain ⟨written, inside, given⟩ := each source member
    obtain ⟨value, valueRead, given⟩ := bind_gives given
    cases given
    obtain ⟨valueSpelled, label⟩ := spelled.sources written inside
    exact ⟨⟨_, _, valueRead, valueSpelled⟩, label⟩
  refine .of_definition rfl spelled.target rfl ?operands
    ⟨rfl, ?nonempty, fun source member => (origin source member).2⟩
  case operands =>
    intro value member
    obtain ⟨source, inside, rfl⟩ := List.mem_map.mp member
    exact (origin source inside).1
  case nonempty =>
    refine List.ne_nil_of_length_pos ?_
    rw [length]
    exact List.length_pos_iff.mpr spelled.nonempty

theorem terminator_meaning {draft : Terminator} {instr : KernelGuard.Instr}
    (read : draft.meaning = .ok instr) (spelled : draft.Spelled) :
    Plain instr ∧ instr.isSequential = false := by
  cases draft with
  | jump target =>
    cases read
    refine ⟨⟨by simp [KernelGuard.Instr.operands], by simp [KernelGuard.Instr.target?], ?_,
      trivial⟩, rfl⟩
    simpa [KernelGuard.Instr.targets, Terminator.Spelled] using spelled
  | branch condition onTrue onFalse =>
    obtain ⟨value, valueRead, read⟩ := bind_gives read
    cases read
    obtain ⟨valueSpelled, labels⟩ := spelled
    refine ⟨⟨?_, by simp [KernelGuard.Instr.target?], ?_, trivial⟩, rfl⟩
    · simp only [KernelGuard.Instr.operands, List.forall_mem_cons]
      exact ⟨⟨_, _, valueRead, valueSpelled⟩, by simp⟩
    · simpa [KernelGuard.Instr.targets] using labels
  | ret operand =>
    cases operand with
    | none =>
      cases read
      exact ⟨⟨by simp [KernelGuard.Instr.operands], by simp [KernelGuard.Instr.target?],
        by simp [KernelGuard.Instr.targets], by simp [KernelGuard.Instr.Complete]⟩, rfl⟩
    | some operand =>
      obtain ⟨value, valueRead, read⟩ := bind_gives read
      cases read
      obtain ⟨valueSpelled, other⟩ := spelled operand rfl
      refine ⟨⟨?_, by simp [KernelGuard.Instr.target?], by simp [KernelGuard.Instr.targets], ?_⟩,
        rfl⟩
      · simp only [KernelGuard.Instr.operands, Option.toList_some, List.forall_mem_cons]
        exact ⟨⟨_, _, valueRead, valueSpelled⟩, by simp⟩
      · rintro _ ⟨⟩
        exact operand_not_void valueRead other

/-- What the meaning of a block says apart from its floating constants. -/
theorem block_plain {draft : Block} {block : Module.Block} (read : draft.meaning = .ok block)
    (spelled : draft.Spelled) :
    Lexeme.Spelled block.label ∧
      (∀ phi ∈ block.phis, Plain (.phi phi) ∧ (KernelGuard.Instr.phi phi).wellTyped = true) ∧
      (∀ instr ∈ block.instrs, (Plain instr ∧ instr.wellTyped = true) ∧
        instr.isPhi = false ∧ instr.isSequential = true) ∧
      (Plain block.terminator ∧ block.terminator.wellTyped = true) ∧
        block.terminator.isSequential = false := by
  obtain ⟨phis, phisRead, read⟩ := bind_gives read
  obtain ⟨instrs, instrsRead, read⟩ := bind_gives read
  obtain ⟨meaning, meant, read⟩ := bind_gives read
  obtain ⟨terminator, passed, read⟩ := bind_gives read
  cases read
  refine ⟨spelled.label, ?_, ?_, ?_⟩
  · intro phi member
    obtain ⟨written, inside, given⟩ := (mapM_gives phisRead).2 phi member
    obtain ⟨meaning, meant, given⟩ := bind_gives given
    obtain ⟨passed, typed, given⟩ := bind_gives given
    cases given
    exact ⟨phi_meaning meant (spelled.phis written inside), (checked_gives typed).2⟩
  · intro instr member
    obtain ⟨written, inside, given⟩ := (mapM_gives instrsRead).2 instr member
    obtain ⟨meaning, meant, given⟩ := bind_gives given
    obtain ⟨rfl, typed⟩ := checked_gives given
    obtain ⟨plain, notPhi, sequential⟩ := instr_meaning meant (spelled.instrs written inside)
    exact ⟨⟨plain, typed⟩, notPhi, sequential⟩
  · obtain ⟨rfl, typed⟩ := checked_gives passed
    obtain ⟨plain, ends⟩ := terminator_meaning meant spelled.terminator
    exact ⟨⟨plain, typed⟩, ends⟩

theorem block_meaning {draft : Block} {block : Module.Block} (read : draft.meaning = .ok block)
    (spelled : draft.Spelled) (finite : block.Finite) : block.Readable := by
  obtain ⟨label, phis, instrs, ⟨plain, typed⟩, ends⟩ := block_plain read spelled
  have code : ∀ instr, (instr ∈ block.phis.map KernelGuard.Instr.phi ∨ instr ∈ block.instrs ∨
      instr = block.terminator) → ∀ value ∈ instr.operands, value.isFinite = true := by
    intro instr member
    refine finite instr ?_
    simpa [Func.blockOf, KernelGuard.Block.code, KernelGuard.Block.body, or_assoc] using member
  refine ⟨label, ?_, ?_, plain.readable typed (code _ (.inr (.inr rfl))), ends⟩
  · intro phi member
    obtain ⟨plain, typed⟩ := phis phi member
    exact plain.readable typed (code _ (.inl (List.mem_map.mpr ⟨phi, member, rfl⟩)))
  · intro instr member
    obtain ⟨⟨plain, typed⟩, kind⟩ := instrs instr member
    exact ⟨plain.readable typed (code _ (.inr (.inl member))), kind⟩

theorem function_meaning {draft : Function} {function : Module.Function}
    (read : draft.meaning = .ok function) (spelled : draft.Spelled)
    (finite : ∀ block ∈ function.blocks, block.Finite) : function.Readable := by
  obtain ⟨blocks, blocksRead, read⟩ := bind_gives read
  cases read
  obtain ⟨length, each⟩ := mapM_gives blocksRead
  refine ⟨spelled.name, ?_, ?_, ?_⟩
  · intro param member
    obtain ⟨written, inside, rfl⟩ := List.mem_map.mp member
    exact ⟨spelled.params written inside, rfl⟩
  · refine List.ne_nil_of_length_pos ?_
    rw [length]
    exact List.length_pos_iff.mpr spelled.nonempty
  · intro block member
    obtain ⟨written, inside, given⟩ := each block member
    exact block_meaning given (spelled.blocks written inside) (finite block member)

theorem global_meaning {draft : Global} {global : KernelGuard.Global}
    (read : draft.meaning = .ok global) (spelled : draft.Spelled)
    (finite : ∀ value ∈ global.initial, value.isFinite = true) : global.Readable := by
  unfold Global.meaning at read
  split at read
  · cases read
    exact ⟨spelled.name, by simp⟩
  · rename_i operand present
    obtain ⟨value, valueRead, read⟩ := bind_gives read
    cases read
    refine ⟨spelled.name, ?_⟩
    rintro _ ⟨⟩
    have constant := spelled.initial operand present
    have plain : operand.item.Spelled := by
      cases form : operand.item with
      | localName name | globalName name =>
        rw [form] at constant
        cases constant
      | _ => trivial
    exact ⟨stands_readable ⟨_, _, valueRead, plain⟩ (finite value rfl),
      constant_meaning valueRead constant⟩

/-- An item adds what it means and keeps what was there. -/
private theorem extend_members {item : Item} {start next : Module}
    (step : item.extend start = .ok next) :
    (∀ global ∈ next.globals, global ∈ start.globals ∨
        ∃ written, item = .global written ∧ written.meaning = .ok global) ∧
      ∀ function ∈ next.functions, function ∈ start.functions ∨
        ∃ written, item = .function written ∧ written.meaning = .ok function := by
  cases item with
  | global written =>
    obtain ⟨meaning, meant, step⟩ := bind_gives step
    cases step
    refine ⟨fun global member => ?_, fun function member => .inl member⟩
    rcases List.mem_append.mp member with old | new
    · exact .inl old
    · cases List.mem_singleton.mp new
      exact .inr ⟨written, rfl, meant⟩
  | function written =>
    obtain ⟨meaning, meant, step⟩ := bind_gives step
    cases step
    refine ⟨fun global member => .inl member, fun function member => ?_⟩
    rcases List.mem_append.mp member with old | new
    · exact .inl old
    · cases List.mem_singleton.mp new
      exact .inr ⟨written, rfl, meant⟩

private theorem extended_members {draft : Draft} {start module : Module}
    (read : draft.foldlM Item.extend start = .ok module) :
    (∀ global ∈ module.globals, global ∈ start.globals ∨
        ∃ written, .global written ∈ draft ∧ written.meaning = .ok global) ∧
      ∀ function ∈ module.functions, function ∈ start.functions ∨
        ∃ written, .function written ∈ draft ∧ written.meaning = .ok function := by
  induction draft generalizing start with
  | nil =>
    cases read
    exact ⟨fun _ => .inl, fun _ => .inl⟩
  | cons item draft ih =>
    rw [List.foldlM_cons] at read
    obtain ⟨next, step, read⟩ := bind_gives read
    obtain ⟨laterGlobals, laterFunctions⟩ := ih read
    obtain ⟨globals, functions⟩ := extend_members step
    constructor
    · intro global member
      rcases laterGlobals global member with old | ⟨written, inside, meant⟩
      · rcases globals global old with older | ⟨written, rfl, meant⟩
        · exact .inl older
        · exact .inr ⟨written, by simp, meant⟩
      · exact .inr ⟨written, List.mem_cons_of_mem _ inside, meant⟩
    · intro function member
      rcases laterFunctions function member with old | ⟨written, inside, meant⟩
      · rcases functions function old with older | ⟨written, rfl, meant⟩
        · exact .inl older
        · exact .inr ⟨written, by simp, meant⟩
      · exact .inr ⟨written, List.mem_cons_of_mem _ inside, meant⟩

theorem meaning_members {draft : Draft} {module : Module} (read : draft.meaning = .ok module) :
    (∀ global ∈ module.globals, ∃ written, .global written ∈ draft ∧ written.meaning = .ok global) ∧
      ∀ function ∈ module.functions, ∃ written,
        .function written ∈ draft ∧ written.meaning = .ok function := by
  obtain ⟨globals, functions⟩ := extended_members read
  exact ⟨fun global member => (globals global member).resolve_left (by simp),
    fun function member => (functions function member).resolve_left (by simp)⟩

end Draft

/-- What is read is the meaning of a draft. -/
theorem Module.draft_ofText {text : String} {module : Module}
    (read : Module.ofText text = .ok module) :
    ∃ draft, Draft.ofText? text.toList = some draft ∧ draft.meaning = .ok module := by
  unfold Module.ofText at read
  split at read
  · cases read
  · rename_i draft drafted
    split at read
    · rename_i meant
      cases read
      exact ⟨draft, drafted, meant⟩
    · cases read

/-- What is read is readable, provided its floating constants are finite. -/
theorem Module.ofText_readable {text : String} {module : Module}
    (read : Module.ofText text = .ok module) (finite : module.Finite) : module.Readable := by
  obtain ⟨draft, drafted, meant⟩ := Module.draft_ofText read
  have spelled := Draft.ofText_spelled drafted
  obtain ⟨globals, functions⟩ := Draft.meaning_members meant
  constructor
  · intro global member
    obtain ⟨written, inside, given⟩ := globals global member
    exact Draft.global_meaning given (spelled _ inside) (finite.globals global member)
  · intro function member
    obtain ⟨written, inside, given⟩ := functions function member
    exact Draft.function_meaning given (spelled _ inside) (finite.functions function member)

/-- Only local temporaries are written by what is read. -/
theorem Module.ofText_targets {text : String} {module : Module}
    (read : Module.ofText text = .ok module) :
    ∀ function ∈ module.functions, ∀ block ∈ function.blocks,
      (∀ phi ∈ block.phis, phi.target.IsTarget) ∧
        ∀ instr ∈ block.instrs, ∀ temp ∈ instr.target?, temp.IsTarget := by
  obtain ⟨draft, drafted, meant⟩ := Module.draft_ofText read
  have spelled := Draft.ofText_spelled drafted
  intro function member block inside
  obtain ⟨written, among, given⟩ := (Draft.meaning_members meant).2 function member
  obtain ⟨blocks, blocksRead, given⟩ := bind_gives given
  cases given
  obtain ⟨source, among', given⟩ := (mapM_gives blocksRead).2 block inside
  obtain ⟨-, phis, instrs, -⟩ := Draft.block_plain given ((spelled _ among).blocks source among')
  exact ⟨fun phi member => (phis phi member).1.target _ rfl,
    fun instr member => (instrs instr member).1.1.target⟩

end KernelGuard
