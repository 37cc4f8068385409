import KernelGuard.Proofs.EditReadBack
import KernelGuard.Proofs.RemovalSession

/-! Reading back what removals leave behind. A removal hands the constant `true` to every
reader of a comparison, and an instruction writes most of its operands with a type of its own
choice, which nobody compares with the type of what it reads. So a function keeps its types
exactly when no `true` ends up at another type, and then the printed text is accepted and
printed as it is. -/
namespace KernelGuard

/-- The operands that an instruction writes with a type of its own choice, and these types. A
stored or returned value and an offset are written with the types that they carry. -/
def Instr.pins : Instr → List (Value × Ty)
  | arith _ _ type lhs rhs | compare _ _ _ type lhs rhs => [(lhs, type), (rhs, type)]
  | convert _ _ source operand _ => [(operand, source)]
  | load _ _ address | store _ address | elementPtr _ _ address _ => [(address, .ptr)]
  | call _ _ _ args => args.map fun arg => (arg.2, arg.1)
  | phi p => p.sources.map fun source => (source.1, p.type)
  | branch type condition _ _ => [(condition, type)]
  | jump _ | ret _ => []

/-- What the type check asks of an instruction besides the types of those operands. -/
def Instr.Shaped : Instr → Prop
  | arith target op type _ _ => op.accepts type = true ∧ target.type = type
  | compare target kind predicate type _ _ =>
    kind.accepts type = true ∧ predicate.accepts type = true ∧ target.type = .i1
  | convert target op source _ result =>
    op.joins source result = true ∧ target.type = result ∧ op.accepts source = true
  | load target type _ => target.type = type
  | elementPtr target _ _ offset => target.type.isPtr = true ∧ offset.type.isInt = true
  | call target type _ _ => target.isSome ≠ type.isVoid
  | branch type .. => type = .i1
  | store .. | phi _ | jump _ | ret _ => True

/-- Every operand that reads a temporary is written with one type, if its instruction chooses
the type. -/
def Func.ReadsAt (func : Func) (name : Name) (type : Ty) : Prop :=
  ∀ block ∈ func.blocks, ∀ instr ∈ block.code, ∀ pin ∈ instr.pins,
    pin.1.name? = some name → pin.2 = type

/-- No `true` is written with another type than its own. -/
def Func.TruthsFit (func : Func) : Prop :=
  ∀ block ∈ func.blocks, ∀ instr ∈ block.code, ∀ pin ∈ instr.pins, pin.1 = .bool true → pin.2 = .i1

/-- A change of operands that leaves each alone or hands it `true` in place of one of some
temporaries. -/
def Hands (names : List Name) (f : Value → Value) : Prop :=
  ∀ value, f value = value ∨ f value = .bool true ∧ ∃ name ∈ names, value.name? = some name

namespace Instr

variable {names : List Name} {f : Value → Value}

theorem pins_mapOperands (f : Value → Value) (instr : Instr) :
    (instr.mapOperands f).pins = instr.pins.map fun pin => (f pin.1, pin.2) := by
  cases instr <;> simp [mapOperands, pins, Phi.mapOperands]

theorem typed_iff {instr : Instr} :
    instr.wellTyped = true ↔ instr.Shaped ∧ ∀ pin ∈ instr.pins, pin.1.type = pin.2 := by
  have isPtr : ∀ type : Ty, type.isPtr = true ↔ type = .ptr := fun type => by
    cases type <;> decide
  cases instr with
  | call target type callee args =>
    simp only [wellTyped, Shaped, pins, Bool.and_eq_true, bne_iff_ne, List.all_eq_true,
      decide_eq_true_eq, List.forall_mem_map]
    exact and_congr_right' (forall₂_congr fun _ _ => eq_comm)
  | phi p =>
    simp only [wellTyped, Shaped, pins, List.all_eq_true, decide_eq_true_eq, List.forall_mem_map,
      true_and]
  | branch type condition onTrue onFalse =>
    simp only [wellTyped, Shaped, pins, Bool.and_eq_true, decide_eq_true_eq, List.forall_mem_singleton]
    exact and_congr_right fun type => by rw [type]
  | arith | compare | convert | elementPtr =>
    simp only [wellTyped, Shaped, pins, Bool.and_eq_true, decide_eq_true_eq, isPtr,
      List.forall_mem_cons, List.not_mem_nil, false_implies, implies_true, and_true]
    tauto
  | load => simp [wellTyped, Shaped, pins, isPtr, and_comm]
  | store => simp [wellTyped, Shaped, pins, isPtr]
  | jump | ret => simp [wellTyped, Shaped, pins]

private theorem shaped_of_hands {instr : Instr} (hands : Hands names f) (shaped : instr.Shaped) :
    (instr.mapOperands f).Shaped := by
  cases instr with
  | elementPtr target type address offset =>
    refine ⟨shaped.1, ?_⟩
    rcases hands offset with same | ⟨handed, -⟩
    · rw [same]
      exact shaped.2
    · rw [handed]
      rfl
  | _ => exact shaped

/-- An instruction that was well typed remains so exactly if no `true` stands at another type. -/
theorem typed_of_hands {instr : Instr} (hands : Hands names f) (typed : instr.wellTyped = true) :
    (instr.mapOperands f).wellTyped = true ↔
      ∀ pin ∈ (instr.mapOperands f).pins, pin.1 = .bool true → pin.2 = .i1 := by
  obtain ⟨shaped, typed⟩ := typed_iff.mp typed
  rw [typed_iff, pins_mapOperands, List.forall_mem_map, List.forall_mem_map]
  constructor
  · rintro ⟨-, typed⟩ pin member truth
    rw [← typed pin member, truth]
    rfl
  · intro truths
    refine ⟨shaped_of_hands hands shaped, fun pin member => ?_⟩
    rcases hands pin.1 with same | ⟨handed, -⟩
    · rw [same]
      exact typed pin member
    · rw [truths pin member handed, handed]
      rfl

/-- Handing out `true` leaves names and constants as legible as they were. -/
theorem legible_of_hands {instr : Instr} (hands : Hands names f) (legible : instr.Legible) :
    (instr.mapOperands f).Legible where
  operands := by
    rw [operands_mapOperands]
    refine List.forall_mem_map.mpr fun value member => ?_
    rcases hands value with same | ⟨handed, -⟩
    · rw [same]
      exact legible.operands value member
    · rw [handed]
      rfl
  target := by simpa using legible.target
  labels := by simpa using legible.labels
  complete := by
    have complete := legible.complete
    cases instr with
    | phi p =>
      obtain ⟨type, nonempty, labels⟩ := complete
      refine ⟨type, by simpa [Phi.mapOperands] using nonempty, ?_⟩
      exact List.forall_mem_map.mpr labels
    | ret value =>
      intro written member
      obtain ⟨origin, present, rfl⟩ := Option.map_eq_some_iff.mp member
      rcases hands origin with same | ⟨handed, -⟩
      · rw [same]
        exact complete origin present
      · rw [handed]
        decide
    | _ => exact complete

end Instr

/-! ## What removals make of a function -/

namespace Func

variable {func left : Func} {names : List Name}

/-- What is left of a function is part of its code, with `true` handed to readers of some
temporaries. -/
structure HandedOut (names : List Name) (func left : Func) : Prop where
  ways : left.ways = func.ways
  legible : left.Legible
  code : ∃ f, Hands names f ∧ ∀ block ∈ left.blocks, ∀ instr ∈ block.code,
    ∃ origin ∈ func.blocks, ∃ original ∈ origin.code, instr = original.mapOperands f

private theorem withoutDefinition_legible {block : Block} (legible : block.Legible) (name : Name) :
    (block.withoutDefinition name).Legible where
  label := legible.label
  phis := fun phi member => legible.phis phi (List.mem_of_mem_filter member)
  instrs := fun instr member => legible.instrs instr (List.mem_of_mem_filter member)
  ended := legible.ended

private theorem mapOperands_legible {block : Block} {f : Value → Value} (hands : Hands names f)
    (legible : block.Legible) : (block.mapOperands f).Legible where
  label := legible.label
  phis := List.forall_mem_map.mpr fun phi member =>
    Instr.legible_of_hands hands (legible.phis phi member)
  instrs := List.forall_mem_map.mpr fun instr member => by
    obtain ⟨legible, kind⟩ := legible.instrs instr member
    refine ⟨Instr.legible_of_hands hands legible, ?_⟩
    cases instr <;> exact kind
  ended := by
    obtain ⟨terminator, ends, legible, kind⟩ := legible.ended
    refine ⟨terminator.mapOperands f, by simp [Block.mapOperands, ends],
      Instr.legible_of_hands hands legible, ?_⟩
    cases terminator <;> exact kind

private theorem hands_substitute {name : Name} (member : name ∈ names) :
    Hands names (Value.substitute name (.bool true)) := by
  intro value
  by_cases reads : value.name? = some name
  · exact .inr ⟨by simp [Value.substitute, reads], name, member, reads⟩
  · exact .inl (by simp [Value.substitute, reads])

private theorem hands_comp {f g : Value → Value} (first : Hands names f) (then' : Hands names g) :
    Hands names (g ∘ f) := by
  intro value
  rcases first value with same | ⟨handed, reads⟩
  · simpa only [Function.comp_apply, same] using then' value
  · refine .inr ⟨?_, reads⟩
    rw [Function.comp_apply, handed]
    rcases then' (.bool true) with same | ⟨handed, -⟩
    · exact same
    · exact handed

private theorem ways_folded (func : Func) (name : Name) : (func.folded name).ways = func.ways := by
  have mapped : ∀ (f : Value → Value) (block : Block), (block.mapOperands f).ways = block.ways := by
    intro f block
    cases ends : block.terminator <;> simp [Block.ways, Block.mapOperands, ends]
  have kept : ∀ blocks : List Block, (erased name blocks).map Block.ways = blocks.map Block.ways := by
    intro blocks
    induction blocks with
    | nil => rfl
    | cons block rest ih =>
      rw [erased_cons]
      split
      · rfl
      · rw [List.map_cons, List.map_cons, ih]
  by_cases defined : func.defines name = true
  · rw [folded_of_defined defined, ways, ways, List.map_map, ← kept func.blocks]
    exact List.map_congr_left fun block _ => mapped _ block
  · rw [folded_of_undefined (eq_false_of_ne_true defined)]

/-- Folding hands out `true` once more. -/
private theorem handedOut_folded {name : Name} (member : name ∈ names)
    (handed : HandedOut names func left) : HandedOut names func (left.folded name) := by
  by_cases defined : left.defines name = true
  swap
  · rwa [folded_of_undefined (eq_false_of_ne_true defined)]
  have step := hands_substitute member
  refine ⟨(ways_folded left name).trans handed.ways, ?_, ?_⟩
  · rw [folded_of_defined defined]
    refine ⟨handed.legible.name, handed.legible.params, ?_, ?_⟩
    · have some' := handed.legible.nonempty
      rw [← List.length_pos_iff] at some' ⊢
      simpa [length_erased] using some'
    · refine List.forall_mem_map.mpr fun block inside => mapOperands_legible step ?_
      obtain ⟨origin, original, rfl | rfl⟩ := mem_erased inside
      · exact handed.legible.blocks _ original
      · exact withoutDefinition_legible (handed.legible.blocks _ original) name
  · obtain ⟨f, hands, code⟩ := handed.code
    refine ⟨_, hands_comp hands step, ?_⟩
    rw [folded_of_defined defined]
    refine List.forall_mem_map.mpr fun block inside instr listed => ?_
    rw [Block.code_mapOperands] at listed
    obtain ⟨before, among, rfl⟩ := List.mem_map.mp listed
    obtain ⟨origin, original, which⟩ := mem_erased inside
    have kept : before ∈ origin.code := by
      rcases which with rfl | rfl
      · exact among
      · rcases List.mem_append.mp among with body | last
        · rw [Block.body_withoutDefinition] at body
          exact List.mem_append_left _ (List.mem_of_mem_filter body)
        · exact List.mem_append_right _ last
    obtain ⟨source, there, first, stood, rfl⟩ := code origin original before kept
    exact ⟨source, there, first, stood, Instr.mapOperands_mapOperands f _ first⟩

/-- A function that has had `true` handed out is well typed exactly if none stands at another
type. -/
private theorem handedOut_typed_iff (typed : func.WellTyped) (handed : HandedOut names func left) :
    left.WellTyped ↔ left.TruthsFit := by
  obtain ⟨f, hands, code⟩ := handed.code
  refine forall₂_congr fun block member => forall₂_congr fun instr listed => ?_
  obtain ⟨origin, inside, original, there, rfl⟩ := code block member instr listed
  exact Instr.typed_of_hands hands (typed origin inside original there)

/-- So it is if all that read the temporaries read them as truth values. -/
private theorem truthsFit_of_reads (typed : func.WellTyped) (handed : HandedOut names func left)
    (reads : ∀ name ∈ names, func.ReadsAt name .i1) : left.TruthsFit := by
  obtain ⟨f, hands, code⟩ := handed.code
  intro block member instr listed
  obtain ⟨origin, inside, original, there, rfl⟩ := code block member instr listed
  rw [Instr.pins_mapOperands]
  refine List.forall_mem_map.mpr fun pin chosen truth => ?_
  rcases hands pin.1 with same | ⟨-, name, among, read⟩
  · have own := (Instr.typed_iff.mp (typed origin inside original there)).2 pin chosen
    rw [same] at truth
    rw [← own, truth]
    rfl
  · exact reads name among origin inside original there pin chosen read

/-- A function as it is, before anything is handed out. -/
private theorem handedOut_nothing (names : List Name) (legible : func.Legible) :
    HandedOut names func func := by
  refine ⟨rfl, legible, id, fun _ => .inl rfl, fun block member instr listed => ?_⟩
  exact ⟨block, member, instr, listed, (Instr.mapOperands_id instr).symm⟩

private theorem handedOut_after {session : Session} (removers : List Remover)
    (covers : ∀ remover ∈ removers, ∀ fact,
      session.analysis.usable? remover.dimension = some fact → fact.compare.name ∈ names)
    (handed : HandedOut names func session.func) :
    HandedOut names func (session.after (removers.map .remove)).func := by
  induction removers generalizing session with
  | nil => exact handed
  | cons remover rest ih =>
    obtain ⟨first, later⟩ := List.forall_mem_cons.mp covers
    have keeps := session.keeps_next (.remove remover)
    refine @ih (session.next (.remove remover)) ?_ ?_
    · intro other member fact usable
      exact later other member fact (keeps.usable _ ▸ usable)
    · rcases session.idle_or_due remover with idle | ⟨fact, usable, unspent⟩
      · simpa only [Session.next, Session.removal_of_idle idle] using handed
      · simp only [Session.next, Session.removal_of_due usable unspent]
        exact handedOut_folded (first fact usable) handed

end Func

namespace Program

/-- After any removals in a function of a program that was read, the program is well typed
exactly if no `true` stands at another type in what is left of the function, as it does not
where all readers of the removed comparisons take truth values. Then what is printed of the
program is accepted, and printed as it is. -/
theorem removals_read_back {text : String} {program : Program} {place : Nat} {func : Func}
    (parsed : ofText text = .ok program)
    (finite : ∀ value ∈ program.operands, value.isFinite = true)
    (here : program.functions[place]? = some func) (region : Region)
    (postDominates : Nat → Nat → Bool) (symbols : IndexSymbols) (removers : List Remover) :
    let began := Session.start func region postDominates symbols
    let left := (began.after (removers.map .remove)).func
    let result := { program with functions := program.functions.set place left }
    (result.WellTyped ↔ left.TruthsFit) ∧
      ((∀ remover ∈ removers, ∀ fact, began.analysis.usable? remover.dimension = some fact →
        func.ReadsAt fact.compare.name .i1) → result.WellTyped) ∧
      (result.WellTyped → ∃ again, ofText result.text = .ok again ∧ again.text = result.text) := by
  intro began left result
  obtain ⟨legible, checked⟩ := legible_ofText parsed finite
  have member : func ∈ program.functions := List.mem_of_getElem? here
  let names := removers.filterMap fun remover =>
    (began.analysis.usable? remover.dimension).map (·.compare.name)
  have handed : func.HandedOut names left := by
    refine Func.handedOut_after removers ?_ (Func.handedOut_nothing names (legible func member))
    intro remover chosen fact usable
    exact List.mem_filterMap.mpr ⟨remover, chosen, Option.map_eq_some_iff.mpr ⟨fact, usable, rfl⟩⟩
  have inside : left ∈ result.functions :=
    List.mem_set (List.getElem?_eq_some_iff.mp here).1 left
  have others : ∀ other ∈ result.functions, other ∈ program.functions ∨ other = left :=
    fun other listed => List.mem_or_eq_of_mem_set listed
  have typed : result.WellTyped ↔ left.TruthsFit := by
    rw [← Func.handedOut_typed_iff (checked func member) handed]
    refine ⟨fun typed => typed left inside, fun typed other listed => ?_⟩
    rcases others other listed with old | rfl
    · exact checked other old
    · exact typed
  refine ⟨typed, fun reads => typed.mpr ?_, fun passes => ?_⟩
  · refine Func.truthsFit_of_reads (checked func member) handed fun name among => ?_
    obtain ⟨remover, chosen, made⟩ := List.mem_filterMap.mp among
    obtain ⟨fact, usable, rfl⟩ := Option.map_eq_some_iff.mp made
    exact reads remover chosen fact usable
  · have ways : SameWays program result := by
      refine ⟨rfl, List.ext_getElem? fun other => ?_⟩
      simp only [result, List.getElem?_map, List.getElem?_set]
      split
      · rename_i same
        subst same
        obtain ⟨bound, found⟩ := List.getElem?_eq_some_iff.mp here
        simp [bound, found, handed.ways]
      · rfl
    refine edited_reads_back parsed finite ways (fun other listed => ?_) passes
    rcases others other listed with old | rfl
    · exact legible other old
    · exact handed.legible

/-- A kernel with one more reader of the condition of its branch. -/
def readerText (bound : List String) (condition reader : String) : String := String.join <|
  ["@_local_id_x = external global i32\n", "\n", "define void @pick(i32 %n) \x7b\n", "entry:\n",
    "  %x = load i32, ptr @_local_id_x\n", "  %i = add i32 %x, 0\n"] ++ bound ++
  ["  ", reader, "\n", "  br i1 ", condition, ", label %body, label %exit\n", "body:\n",
    "  call void @work()\n", "  br label %exit\n", "exit:\n", "  ret void\n", "\x7d\n"]

/-- The kernel with its bound. -/
def boundedText : String → String := readerText ["  %c = icmp ult i32 %i, %n\n"] "%c"

/-- The kernel with its bound or without it, the condition of its branch, and the reader. -/
def readerFunc (bound : List Instr) (condition : Value) (reader : Instr) : Func where
  name := "pick"
  returnType := .void
  params := [.ofLocal "n" .i32]
  blocks := [
    { label := "entry", phis := [],
      instrs := [
        .load (.ofLocal "x" .i32) .i32 (.temp (.ofGlobal "_local_id_x")),
        .arith (.ofLocal "i" .i32) .add .i32 (.temp (.ofLocal "x" .i32)) (.int 0)] ++
        bound ++ [reader],
      terminator := some (.branch .i1 condition "body" "exit"), prev := [], succ := [1, 2] },
    { label := "body", phis := [], instrs := [.call none .void "work" []],
      terminator := some (.jump "exit"), prev := [0], succ := [2] },
    { label := "exit", phis := [], instrs := [], terminator := some (.ret none),
      prev := [0, 1], succ := [] }]
  names := ⟨0, ["w", "c", "i", "x", "n"]⟩

/-- What the kernel stands in, with one function or another. -/
def readerProgram (func : Func) : Program := ⟨[⟨"_local_id_x", .i32, none⟩], [func]⟩

/-- The kernel as it is read. -/
def readerBefore (reader : Instr) : Func :=
  readerFunc [.compare (.ofLocal "c" .i1) .icmp .ult .i32 (.temp (.ofLocal "i" .i32))
    (.temp (.ofLocal "n" .i32))] (.temp (.ofLocal "c" .i1)) reader

/-- What is left of the kernel when its bound is removed. -/
def readerLeft (reader : Instr) : Func :=
  let func := readerBefore reader
  ((Session.start func (Region.whole func) (func.domTree .backward).dominates .standard).after
    [.remove .x]).func

/-- A reader of the bound as a truth value. -/
def truthReader (truth : Value) : Instr := .arith (.ofLocal "w" .i1) .xor .i1 truth (.bool false)

private theorem truthReader_left : readerLeft (truthReader (.temp (.ofLocal "c" .i1))) =
    readerFunc [] (.bool true) (truthReader (.bool true)) := by
  cbv

/-- With such a reader, what removing the bound leaves is read back. -/
theorem truthReader_reads_back :
    let reader := truthReader (.temp (.ofLocal "c" .i1))
    let program := readerProgram (readerBefore reader)
    let result := readerProgram (readerLeft reader)
    ofText (boundedText "%w = xor i1 %c, false") = .ok program ∧
      (∀ value ∈ program.operands, value.isFinite = true) ∧ result ≠ program ∧
      ∃ again, ofText result.text = .ok again ∧ again.text = result.text := by
  intro reader program result
  have parsed : ofText (boundedText "%w = xor i1 %c, false") = .ok program :=
    (ofText_join _).trans (by decide +kernel)
  have finite : ∀ value ∈ program.operands, value.isFinite = true := by decide +kernel
  have here : program.functions[0]? = some (readerBefore reader) := rfl
  obtain ⟨-, -, back⟩ := removals_read_back parsed finite here (Region.whole (readerBefore reader))
    ((readerBefore reader).domTree .backward).dominates .standard [.x]
  have made : result = readerProgram (readerFunc [] (.bool true) (truthReader (.bool true))) := by
    simp only [result, reader, truthReader_left]
  have typed : result.WellTyped := by
    rw [made]
    decide
  refine ⟨parsed, finite, ?_, back typed⟩
  rw [made]
  decide

/-- A reader of the bound as a number. -/
def numberReader (number : Value) : Instr := .arith (.ofLocal "w" .i32) .add .i32 number (.int 1)

private theorem numberReader_left : readerLeft (numberReader (.temp (.ofLocal "c" .i32))) =
    readerFunc [] (.bool true) (numberReader (.bool true)) := by
  cbv

/-- A kernel that reads its bound as a number is accepted. When the bound is removed the number
is `true`, and what is printed is refused. -/
theorem numberReader_refused :
    let reader := numberReader (.temp (.ofLocal "c" .i32))
    let program := readerProgram (readerBefore reader)
    let result := readerProgram (readerLeft reader)
    ofText (boundedText "%w = add i32 %c, 1") = .ok program ∧
      (∀ value ∈ program.operands, value.isFinite = true) ∧ ¬result.WellTyped ∧
      ∀ again, ofText result.text ≠ .ok again := by
  intro reader program result
  have made : result = readerProgram (readerFunc [] (.bool true) (numberReader (.bool true))) := by
    simp only [result, reader, numberReader_left]
  refine ⟨(ofText_join _).trans (by decide +kernel), by decide +kernel, ?_,
    fun again accepted => ?_⟩
  · rw [made]
    decide
  · have printed : result.text = readerText [] "true" "%w = add i32 true, 1" := by
      rw [made]
      decide +kernel
    have refused : (ofText (readerText [] "true" "%w = add i32 true, 1")).toOption.isNone = true :=
      (congrArg (·.toOption.isNone) (ofText_join _)).trans (by decide +kernel)
    rw [← printed, accepted] at refused
    cases refused

end Program

end KernelGuard
