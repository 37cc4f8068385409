import KernelGuard.Proofs.PrintParse

/-! Reading back a program that was edited after it was read. An edit may change, add or
drop instructions as long as every block keeps its label and every terminator goes where it
went. Then linking the printed text succeeds as it did the first time, so the text is
accepted and printed as it is, provided names and constants can be read and every
instruction passes the type check. -/
namespace KernelGuard

open Lexeme

/-! ## What is asked of an edit -/

/-- Every instruction passes the type check. -/
def Func.WellTyped (func : Func) : Prop :=
  ∀ block ∈ func.blocks, ∀ instr ∈ block.code, instr.wellTyped = true

def Program.WellTyped (program : Program) : Prop := ∀ func ∈ program.functions, func.WellTyped

instance (func : Func) : Decidable func.WellTyped :=
  inferInstanceAs (Decidable (∀ block ∈ func.blocks, ∀ instr ∈ block.code, instr.wellTyped = true))

instance (program : Program) : Decidable program.WellTyped :=
  inferInstanceAs (Decidable (∀ func ∈ program.functions, func.WellTyped))

/-- Names and constants can be read, whatever types they are written at. -/
structure Instr.Legible (instr : Instr) : Prop where
  operands : ∀ value ∈ instr.operands, value.Readable
  target : ∀ temp ∈ instr.target?, temp.IsTarget
  labels : ∀ label ∈ instr.targets, Spelled label
  complete : instr.Complete

structure Block.Legible (block : Block) : Prop where
  label : Spelled block.label
  phis : ∀ phi ∈ block.phis, (Instr.phi phi).Legible
  instrs : ∀ instr ∈ block.instrs,
    instr.Legible ∧ instr.isPhi = false ∧ instr.isSequential = true
  ended : ∃ terminator, block.terminator = some terminator ∧ terminator.Legible ∧
    terminator.isSequential = false

structure Func.Legible (func : Func) : Prop where
  name : Spelled func.name
  params : ∀ param ∈ func.params, param.IsTarget
  nonempty : func.blocks ≠ []
  blocks : ∀ block ∈ func.blocks, block.Legible

/-- What can be read is legible and well typed. -/
theorem Instr.readable_iff {instr : Instr} :
    instr.Readable ↔ instr.Legible ∧ instr.wellTyped = true :=
  ⟨fun ⟨typed, operands, target, labels, complete⟩ =>
      ⟨⟨operands, target, labels, complete⟩, typed⟩,
    fun ⟨⟨operands, target, labels, complete⟩, typed⟩ =>
      ⟨typed, operands, target, labels, complete⟩⟩

/-! ## The written form -/

/-- The label of a block and the labels its terminator goes to, if it has one. -/
def Block.ways (block : Block) : Label × Option (List Label) :=
  (block.label, block.terminator.map Instr.targets)

/-- A block as it would be written. -/
def Block.written (block : Block) : Module.Block :=
  ⟨block.label, block.phis, block.instrs, block.terminator.getD (.ret none)⟩

/-- Where control can go between the blocks. -/
def Func.ways (func : Func) : List (Label × Option (List Label)) := func.blocks.map Block.ways

/-- A function as it would be written. -/
def Func.written (func : Func) : Module.Function :=
  ⟨func.name, func.returnType, func.params, func.blocks.map Block.written⟩

/-- A program as it would be written. -/
def Program.written (program : Program) : Module :=
  ⟨program.globals, program.functions.map Func.written⟩

namespace Edge

variable {blocks others : List Block}

private theorem labels_of_ways (same : others.map Block.ways = blocks.map Block.ways) :
    others.map (·.label) = blocks.map (·.label) := by
  have labels := congrArg (List.map Prod.fst) same
  rwa [List.map_map, List.map_map] at labels

private theorem requests_of_ways (same : others.map Block.ways = blocks.map Block.ways) :
    requests others = requests blocks := by
  have asked : ∀ blocks : List Block, requests blocks =
      (blocks.map Block.ways).zipIdx.flatMap fun entry =>
        (entry.1.2.getD []).map (entry.2, ·) := by
    intro blocks
    rw [requests, List.zipIdx_map, List.flatMap_map]
    refine congrArg (List.flatMap · _) (funext fun entry => ?_)
    cases ends : entry.1.terminator <;> simp [Block.ways, Block.targets, ends]
  rw [asked, asked, same]

private theorem resolve_of_same_labels (same : others.map (·.label) = blocks.map (·.label))
    (requests : List (Nat × Label)) : resolve others requests = resolve blocks requests := by
  induction requests with
  | nil => rfl
  | cons request rest ih =>
    obtain ⟨source, label⟩ := request
    rw [resolve, resolve, placeOf?_of_same_labels same, ih]

/-- Whether every target is found depends on where control can go alone. -/
theorem rebuild_of_ways (same : others.map Block.ways = blocks.map Block.ways) :
    (rebuild others).2 = (rebuild blocks).2 := by
  simp only [rebuild, requests_of_ways same, resolve_of_same_labels (labels_of_ways same)]

end Edge

namespace Func

variable {func other : Func}

/-- A function whose blocks all end is written as it is. -/
theorem bare_written (ended : ∀ block ∈ func.blocks, ∃ terminator, block.terminator = some terminator) :
    bare func.written = func.unlinked := by
  have blocks : func.written.blocks.map blockOf = func.blocks.map Block.unlinked := by
    rw [written, List.map_map]
    refine List.map_congr_left fun block member => ?_
    obtain ⟨terminator, ends⟩ := ended block member
    simp [blockOf, Block.written, Block.unlinked, ends]
  simp only [bare, unlinked, blocks]
  rfl

/-- A linked function is written as it was. -/
theorem written_ofModule {function : Module.Function} (linked : ofModule function = .ok func) :
    func.written = function := by
  obtain ⟨-, -, rfl⟩ := ofModule_parts linked
  have blocks : (Edge.rebuild (function.blocks.map blockOf)).1.map Block.written =
      function.blocks := by
    refine List.ext_getElem (by simp [Edge.rebuild, Edge.install]) fun place _ _ => ?_
    simp [Edge.rebuild, Edge.install, Block.written, blockOf]
  simp only [written, blocks]

/-- A legible function that is well typed can be written and read again. -/
theorem written_readable (legible : func.Legible) (typed : func.WellTyped) :
    func.written.Readable := by
  refine ⟨legible.name, legible.params, ?_, ?_⟩
  · simpa [written] using legible.nonempty
  · intro written member
    obtain ⟨block, inside, rfl⟩ := List.mem_map.mp member
    have whole := legible.blocks block inside
    have typed := typed block inside
    obtain ⟨terminator, ends, last, stops⟩ := whole.ended
    refine ⟨whole.label, ?_, ?_, ?_⟩
    · intro phi listed
      exact Instr.readable_iff.mpr ⟨whole.phis phi listed,
        typed _ (List.mem_append_left _ (List.mem_append_left _ (List.mem_map_of_mem listed)))⟩
    · intro instr listed
      obtain ⟨legible, kind⟩ := whole.instrs instr listed
      exact ⟨Instr.readable_iff.mpr ⟨legible,
        typed _ (List.mem_append_left _ (List.mem_append_right _ listed))⟩, kind⟩
    · have checked := typed terminator (List.mem_append_right _ (by simp [ends]))
      simpa [Block.written, ends] using ⟨Instr.readable_iff.mpr ⟨last, checked⟩, stops⟩

/-- A linked function that can be written and read again is legible and well typed. -/
theorem legible_ofModule {function : Module.Function} (linked : ofModule function = .ok func)
    (readable : function.Readable) : func.Legible ∧ func.WellTyped := by
  have ended := (linked_ofModule linked).ended
  rw [← written_ofModule linked] at readable
  have each : ∀ block ∈ func.blocks, block.written.Readable := fun block member =>
    readable.blocks _ (List.mem_map_of_mem member)
  constructor
  · refine ⟨readable.name, readable.params, by simpa [written] using readable.nonempty, ?_⟩
    intro block member
    have whole := each block member
    obtain ⟨terminator, ends⟩ := ended block member
    obtain ⟨last, stops⟩ : terminator.Readable ∧ terminator.isSequential = false := by
      simpa [Block.written, ends] using whole.terminator
    refine ⟨whole.label, fun phi listed => (Instr.readable_iff.mp (whole.phis phi listed)).1, ?_,
      ⟨terminator, ends, (Instr.readable_iff.mp last).1, stops⟩⟩
    intro instr listed
    obtain ⟨readable, kind⟩ := whole.instrs instr listed
    exact ⟨(Instr.readable_iff.mp readable).1, kind⟩
  · intro block member instr listed
    have whole := each block member
    rcases List.mem_append.mp listed with inside | ends
    · rcases List.mem_append.mp inside with phi | plain
      · obtain ⟨first, chosen, rfl⟩ := List.mem_map.mp phi
        exact (whole.phis first chosen).wellTyped
      · exact (whole.instrs instr plain).1.wellTyped
    · have last := whole.terminator.1.wellTyped
      rw [Option.mem_toList] at ends
      rwa [Block.written, ends] at last

theorem ways_unlinked (func : Func) : func.unlinked.ways = func.ways := by
  rw [ways, unlinked, List.map_map]
  rfl

private theorem ended_of_ways (same : other.ways = func.ways)
    (ended : ∀ block ∈ func.blocks, ∃ terminator, block.terminator = some terminator) :
    ∀ block ∈ other.blocks, ∃ terminator, block.terminator = some terminator := by
  intro block member
  have listed : block.ways ∈ func.ways := same ▸ List.mem_map_of_mem member
  obtain ⟨model, inside, alike⟩ := List.mem_map.mp listed
  obtain ⟨terminator, ends⟩ := ended model inside
  have targets : block.terminator.map Instr.targets = some terminator.targets := by
    simpa [Block.ways, ends] using (congrArg Prod.snd alike).symm
  obtain ⟨found, present, -⟩ := Option.map_eq_some_iff.mp targets
  exact ⟨found, present⟩

/-- A function that goes where a linked one goes can be linked as well. -/
theorem written_linked {function : Module.Function} (linked : ofModule function = .ok func)
    (same : other.ways = func.ways) :
    ∃ again, ofModule other.written = .ok again ∧ again.unlinked = other.unlinked := by
  have bare := bare_written (ended_of_ways same (linked_ofModule linked).ended)
  have ways : (other.written.blocks.map blockOf).map Block.ways =
      (function.blocks.map blockOf).map Block.ways := by
    have before := congrArg Func.ways (unlinked_ofModule linked)
    have after := congrArg Func.ways bare
    rw [ways_unlinked] at before after
    exact after.trans (same.trans before)
  have labels : other.written.blocks.map (·.label) = function.blocks.map (·.label) := by
    have written := congrArg (List.map Prod.fst) ways
    rw [List.map_map, List.map_map, List.map_map, List.map_map] at written
    exact written
  have complete := Edge.rebuild_of_ways ways
  have made : ∃ again, ofModule other.written = .ok again := by
    have complete' := (ofModule_parts linked).2.1
    rw [complete'] at complete
    unfold ofModule at linked ⊢
    rw [labels]
    split at linked
    · cases linked
    · dsimp only
      split
      · rename_i missing rebuilt
        rw [rebuilt] at complete
        cases complete
      · exact ⟨_, rfl⟩
  obtain ⟨again, relinked⟩ := made
  exact ⟨again, relinked, (unlinked_ofModule relinked).trans bare⟩

end Func

namespace Program

variable {program edited : Program}

/-- Two programs with the same globals whose functions go to the same places. -/
structure SameWays (program edited : Program) : Prop where
  globals : edited.globals = program.globals
  functions : edited.functions.map Func.ways = program.functions.map Func.ways

theorem written_of_ways {module : Module} (linked : ofModule module = .ok program)
    (same : SameWays program edited) :
    ∃ again, ofModule edited.written = .ok again ∧ again.globals = edited.globals ∧
      again.functions.map Func.unlinked = edited.functions.map Func.unlinked := by
  obtain ⟨functions, given, linked⟩ := bind_gives linked
  cases linked
  have each : ∀ (modules : List Module.Function) (functions others : List Func),
      modules.mapM Func.ofModule = .ok functions → others.map Func.ways = functions.map Func.ways →
        ∃ again, (others.map Func.written).mapM Func.ofModule = .ok again ∧
          again.map Func.unlinked = others.map Func.unlinked := by
    intro modules functions others given same
    induction others generalizing modules functions with
    | nil => exact ⟨[], rfl, rfl⟩
    | cons other others ih =>
      cases modules with
      | nil =>
        cases given
        cases same
      | cons function modules =>
        rw [List.mapM_cons] at given
        obtain ⟨func, first, given⟩ := bind_gives given
        obtain ⟨more, rest, given⟩ := bind_gives given
        cases given
        rw [List.map_cons, List.map_cons, List.cons.injEq] at same
        obtain ⟨again, relinked, unlinked⟩ := Func.written_linked first same.1
        obtain ⟨others', relinked', unlinked'⟩ := ih modules more rest same.2
        refine ⟨again :: others', ?_, ?_⟩
        · rw [List.map_cons, List.mapM_cons, relinked, relinked']
          rfl
        · rw [List.map_cons, List.map_cons, unlinked, unlinked']
  obtain ⟨again, relinked, unlinked⟩ := each _ _ edited.functions given same.functions
  refine ⟨⟨edited.globals, again⟩, ?_, rfl, unlinked⟩
  show (edited.functions.map Func.written).mapM Func.ofModule >>= _ = _
  rw [relinked]
  rfl

/-- The written form is made of the globals and of what is written of the functions. -/
theorem text_of_unlinked (globals : edited.globals = program.globals)
    (functions : edited.functions.map Func.unlinked = program.functions.map Func.unlinked) :
    edited.text = program.text := by
  have texts : ∀ program : Program, program.functions.map Func.text =
      (program.functions.map Func.unlinked).map Func.text := by
    intro program
    rw [List.map_map]
    exact List.map_congr_left fun func _ => (Func.text_unlinked func).symm
  simp only [text, globals, texts, functions]

/-- What is read is legible and well typed, if its floating constants are finite. -/
theorem legible_ofText {text : String} (parsed : ofText text = .ok program)
    (finite : ∀ value ∈ program.operands, value.isFinite = true) :
    (∀ func ∈ program.functions, func.Legible) ∧ program.WellTyped := by
  obtain ⟨module, read, linked⟩ := bind_gives parsed
  have readable := Module.ofText_readable read (finite_of_operands linked finite)
  obtain ⟨functions, given, linked⟩ := bind_gives linked
  cases linked
  have each : ∀ func ∈ functions, func.Legible ∧ func.WellTyped := by
    intro func member
    obtain ⟨function, inside, made⟩ := (mapM_gives given).2 func member
    exact Func.legible_ofModule made (readable.functions function inside)
  exact ⟨fun func member => (each func member).1, fun func member => (each func member).2⟩

/-- What is printed of an edited program is accepted, and printed as it is, if the edited
functions are legible and well typed. -/
theorem edited_reads_back {text : String} (parsed : ofText text = .ok program)
    (finite : ∀ value ∈ program.operands, value.isFinite = true)
    (same : SameWays program edited) (legible : ∀ func ∈ edited.functions, func.Legible)
    (typed : edited.WellTyped) :
    ∃ again, ofText edited.text = .ok again ∧ again.text = edited.text := by
  obtain ⟨module, read, linked⟩ := bind_gives parsed
  obtain ⟨again, relinked, globals, functions⟩ := written_of_ways linked same
  have bare := (functions_ofModule relinked).2
  have readable : edited.written.Readable := by
    constructor
    · have before := Module.ofText_readable read (finite_of_operands linked finite)
      rw [written, same.globals, (functions_ofModule linked).1]
      exact before.globals
    · intro function member
      obtain ⟨func, inside, rfl⟩ := List.mem_map.mp member
      exact Func.written_readable (legible func inside) (typed func inside)
  refine ⟨again, ?_, text_of_unlinked globals functions⟩
  unfold ofText
  rw [module_of_written rfl (functions.symm.trans bare) readable]
  exact relinked

end Program

/-! ## Texts in pieces -/

/-- What is read from the letters of a text. -/
def Module.ofLetters (letters : List Char) : Except Fault Module :=
  match Draft.ofText? letters with
  | none => .error (.grammar (Expectation.misfit letters))
  | some draft =>
    match draft.meaning with
    | .ok module => .ok module
    | .error offence => .error (.complaint (Position.ofMark letters offence.mark) offence.item)

def Program.ofLetters (letters : List Char) : Except Fault Program := do
  ofModule (← Module.ofLetters letters)

/-- A text in pieces is read from the letters of one piece after the other, which are much
faster to list than those of the whole. -/
theorem Program.ofText_join (pieces : List String) :
    ofText (String.join pieces) = ofLetters (pieces.flatMap String.toList) := by
  rw [← String.toList_join]
  rfl

end KernelGuard
