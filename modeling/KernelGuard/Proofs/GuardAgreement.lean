import KernelGuard.Proofs.ConditionMeaning

/-! How much of a function its analysis looks at. Finding the guard takes the edges and
the terminators, and which blocks do nothing but jump. Taking its condition apart takes
the definitions that can be part of a bound; any other definition stands in the way, and
so does a missing one. Functions that agree in so much are analysed alike. -/
namespace KernelGuard

/-- What is left of a block when only its ways in and out are looked at. -/
structure Outline where
  label : Label
  terminator : Option Instr
  prev : List Nat
  succ : List Nat
  isForwarding : Bool

def Block.outline (block : Block) : Outline :=
  ⟨block.label, block.terminator, block.prev, block.succ, block.isForwarding⟩

/-- Whether an instruction can be part of a bound. -/
def Instr.tells : Instr → Bool
  | compare .. | arith _ .and .. | arith _ .add .. | convert _ .trunc .. | load .. => true
  | _ => false

/-- No definition is there, or one that cannot be part of a bound. -/
def Mute (definition : Option Instr) : Prop := ∀ instr ∈ definition, instr.tells = false

/-- Two functions that agree in all that an analysis looks at. -/
structure Func.Agree (func other : Func) : Prop where
  params : func.params = other.params
  outlines : func.blocks.map Block.outline = other.blocks.map Block.outline
  definitions : ∀ name, func.definition? name = other.definition? name ∨
    Mute (func.definition? name) ∧ Mute (other.definition? name)

/-! ## The condition -/

namespace Finding

/-- What a finding contributes: whether it stands in the way, and its fact. -/
def sense : Finding → Bool × Option BoundFact
  | obstacle _ => (true, none)
  | repeated _ => (false, none)
  | fact found => (false, some found)

theorem obstacle_of_sense (finding : Finding) : finding.isObstacle = finding.sense.1 := by
  cases finding <;> rfl

theorem fact_of_sense (dimension : Dimension) (finding : Finding) :
    finding.factFor? dimension = finding.sense.2.filter (·.dimension = dimension) := by
  cases finding with
  | obstacle | repeated => rfl
  | fact found =>
    by_cases same : found.dimension = dimension <;>
      simp [factFor?, sense, Option.filter, same]

end Finding

/-- A survey is made of what the findings contribute. -/
theorem Survey.of_senses {findings others : List Finding}
    (same : findings.map Finding.sense = others.map Finding.sense) :
    (ofFindings findings).value = (ofFindings others).value := by
  have understood : (ofFindings findings).value.understood =
      (ofFindings others).value.understood := by
    have counted : ∀ findings : List Finding, findings.all (!·.isObstacle) =
        (findings.map Finding.sense).all (!·.1) := by
      intro findings
      simp [List.all_map, Function.comp_def, Finding.obstacle_of_sense]
    rw [ofFindings_understood, ofFindings_understood, counted, counted, same]
  have facts : ∀ dimension, (ofFindings findings).value.facts.get dimension =
      (ofFindings others).value.facts.get dimension := by
    intro dimension
    have first : ∀ findings : List Finding, findings.findSome? (Finding.factFor? dimension) =
        (findings.map Finding.sense).findSome? (·.2.filter (·.dimension = dimension)) := by
      intro findings
      rw [List.findSome?_map]
      exact congrArg (findings.findSome? ·) (funext (Finding.fact_of_sense dimension))
    rw [ofFindings_facts, ofFindings_facts, first, first, same]
  generalize (ofFindings findings).value = survey at understood facts
  generalize (ofFindings others).value = other at understood facts
  have x := facts .x
  have y := facts .y
  have z := facts .z
  obtain ⟨_, _, _, _⟩ := survey
  obtain ⟨_, _, _, _⟩ := other
  simp_all [PerDimension.get]

namespace Condition

variable {func other : Func} {symbols : IndexSymbols}

theorem definitionOf?_agree (agree : func.Agree other) (value : Value) :
    definitionOf? func value = definitionOf? other value ∨
      Mute (definitionOf? func value) ∧ Mute (definitionOf? other value) := by
  unfold definitionOf?
  cases value.name? with
  | none => exact .inl rfl
  | some name => exact agree.definitions name

theorem loadedDimension?_of_mute (mute : Mute (definitionOf? func value)) :
    loadedDimension? func symbols value = none := by
  unfold loadedDimension?
  split
  · rename_i defined
    cases mute _ defined
  · rfl

theorem loadedDimension?_agree (agree : func.Agree other) (value : Value) :
    loadedDimension? func symbols value = loadedDimension? other symbols value := by
  rcases definitionOf?_agree agree value with same | ⟨mute, mute'⟩
  · simp only [loadedDimension?, same]
  · rw [loadedDimension?_of_mute mute, loadedDimension?_of_mute mute']

/-- The definition behind at most one truncation. -/
private def origin? (func : Func) (index : Value) : Option Instr :=
  match definitionOf? func index with
  | some (.convert _ .trunc _ operand _) => definitionOf? func operand
  | definition => definition

private theorem origin?_agree (agree : func.Agree other) (index : Value) :
    origin? func index = origin? other index ∨
      Mute (origin? func index) ∧ Mute (origin? other index) := by
  have origin_of_mute : ∀ {func : Func}, Mute (definitionOf? func index) →
      origin? func index = definitionOf? func index := by
    intro func mute
    unfold origin?
    split
    · rename_i defined
      cases mute _ defined
    · rfl
  rcases definitionOf?_agree agree index with same | ⟨mute, mute'⟩
  · unfold origin?
    rw [same]
    split
    · exact definitionOf?_agree agree _
    · exact .inl rfl
  · rw [origin_of_mute mute, origin_of_mute mute']
    exact .inr ⟨mute, mute'⟩

/-- The two operands of an addition. -/
private def summands? : Option Instr → Option (Value × Value)
  | some (.arith _ .add _ lhs rhs) => some (lhs, rhs)
  | _ => none

private theorem addends?_agree (agree : func.Agree other) (index : Value) :
    addends? func index = addends? other index := by
  have from_origin : ∀ func : Func, addends? func index = summands? (origin? func index) :=
    fun _ => rfl
  have none_of_mute : ∀ {func : Func}, Mute (origin? func index) → addends? func index = none := by
    intro func mute
    rw [from_origin]
    unfold summands?
    split
    · rename_i defined
      cases mute _ defined
    · rfl
  rcases origin?_agree agree index with same | ⟨mute, mute'⟩
  · rw [from_origin, from_origin, same]
  · rw [none_of_mute mute, none_of_mute mute']

private theorem compare_of_agree (agree : func.Agree other) (compare : Temp) (kind : CompareKind)
    (predicate : Predicate) (lhs rhs : Value) (text : String) :
    ofCompare func symbols compare kind predicate lhs rhs text =
      ofCompare other symbols compare kind predicate lhs rhs text := by
  have parameter : isParameter func rhs = isParameter other rhs := by
    simp only [isParameter, Func.isParam, agree.params]
  have dimension : loadedDimension? func symbols = loadedDimension? other symbols :=
    funext (loadedDimension?_agree agree)
  simp only [ofCompare, parameter, addends?_agree agree, dimension]

private theorem findings_of_agree (agree : func.Agree other) (visit : Visit) :
    findings func symbols visit = findings other symbols visit := by
  cases visit with
  | exhausted | constant | repeated | conjunction => rfl
  | leaf temp definition =>
    rcases definition with _ | definition
    · rfl
    · cases definition with
      | compare => exact compare_of_agree agree ..
      | arith _ op => cases op <;> rfl
      | convert _ op => cases op <;> rfl
      | _ => rfl

/-- A leaf whose definition cannot be part of a bound stands in the way. -/
private theorem leaf_mute (temp : Temp) {definition : Option Instr} (mute : Mute definition) :
    (findings func symbols (.leaf temp definition)).map Finding.sense = [(true, none)] := by
  rcases definition with _ | definition
  · rfl
  · cases definition with
    | compare => cases mute _ rfl
    | arith _ op => cases op <;> rfl
    | convert _ op => cases op <;> rfl
    | _ => rfl

private theorem walk_of_agree (agree : func.Agree other) (budget : Nat) (pending : List Value)
    (visited : List Name) :
    ((walk func.definition? budget pending visited).flatMap (findings func symbols)).map
        Finding.sense =
      ((walk other.definition? budget pending visited).flatMap (findings other symbols)).map
        Finding.sense := by
  have findings_same : findings func symbols = findings other symbols :=
    funext (findings_of_agree agree)
  rw [findings_same]
  induction budget generalizing pending visited with
  | zero => cases pending <;> simp only [walk]
  | succ budget ih =>
    cases pending with
    | nil => simp only [walk]
    | cons value pending =>
      rcases node_cases func visited value with
        isConstant | ⟨temp, rfl, known⟩ |
          ⟨temp, definition, lhs, rhs, rfl, fresh, defined, joins⟩ | ⟨temp, rfl, fresh, end'⟩
      · simp only [walk_constant isConstant, List.flatMap_cons, List.map_append, ih]
      · simp only [walk_again known, List.flatMap_cons, List.map_append, ih]
      · have defined' : other.definition? temp.name = some definition := by
          rcases agree.definitions temp.name with same | ⟨mute, -⟩
          · exact same ▸ defined
          · obtain ⟨target, type, rfl⟩ := joins
            cases mute _ defined
        simp only [walk_conjunction fresh defined joins, walk_conjunction fresh defined' joins,
          List.flatMap_cons, List.map_append, ih]
      · rcases agree.definitions temp.name with same | ⟨mute, mute'⟩
        · simp only [walk_leaf fresh end', walk_leaf fresh (same ▸ end'), List.flatMap_cons,
            List.map_append, ih, same]
        · have end'' : ∀ definition lhs rhs, other.definition? temp.name = some definition →
              ¬Joins definition lhs rhs := by
            rintro definition lhs rhs defined ⟨target, type, rfl⟩
            cases mute' _ defined
          simp only [walk_leaf fresh end', walk_leaf fresh end'', List.flatMap_cons,
            List.map_append, ih, leaf_mute temp mute, leaf_mute temp mute']

/-- Functions that agree learn the same from a condition. -/
theorem survey_of_agree (agree : func.Agree other) (condition : Value) :
    (Survey.ofFindings (decompose func symbols condition)).value =
      (Survey.ofFindings (decompose other symbols condition)).value :=
  Survey.of_senses (walk_of_agree agree nodeLimit [condition] [])

end Condition

/-! ## The guard -/

namespace Func.Agree

variable {func other : Func}

theorem outline_at (agree : func.Agree other) (place : Nat) :
    func.blocks[place]?.map Block.outline = other.blocks[place]?.map Block.outline := by
  rw [← List.getElem?_map, agree.outlines, List.getElem?_map]

theorem length (agree : func.Agree other) : func.blocks.length = other.blocks.length := by
  simpa using congrArg List.length agree.outlines

theorem place (agree : func.Agree other) (label : Label) :
    func.place? label = other.place? label := by
  have outlined : ∀ func : Func, func.place? label =
      (func.blocks.map Block.outline).findIdx? (·.label = label) := by
    intro func
    rw [List.findIdx?_map]
    rfl
  rw [outlined, outlined, agree.outlines]

theorem region (agree : func.Agree other) (labels : List Label) :
    Region.ofLabels func labels = Region.ofLabels other labels := by
  simp only [Region.ofLabels, agree.place]

theorem labelAt_eq (agree : func.Agree other) (place : Nat) :
    func.labelAt place = other.labelAt place := by
  have outlined : ∀ func : Func, func.labelAt place =
      ((func.blocks[place]?.map Block.outline).map (·.label)).getD "" := by
    intro func
    rw [Option.map_map]
    rfl
  rw [outlined, outlined, agree.outline_at]

theorem succ (agree : func.Agree other) (place : Nat) :
    func.blocks[place]?.map (·.succ) = other.blocks[place]?.map (·.succ) := by
  have same := congrArg (Option.map Outline.succ) (agree.outline_at place)
  rwa [Option.map_map, Option.map_map] at same

theorem prev (agree : func.Agree other) (place : Nat) :
    func.blocks[place]?.map (·.prev) = other.blocks[place]?.map (·.prev) := by
  have same := congrArg (Option.map Outline.prev) (agree.outline_at place)
  rwa [Option.map_map, Option.map_map] at same

/-- Functions that agree have the same tree of dominance, either way. -/
theorem domTree_eq (agree : func.Agree other) (direction : Direction) :
    func.domTree direction = other.domTree direction := by
  have graph : FlowGraph.along direction func.blocks = FlowGraph.along direction other.blocks := by
    have empty : func.blocks.isEmpty = other.blocks.isEmpty := by
      rw [Bool.eq_iff_iff, List.isEmpty_iff_length_eq_zero, List.isEmpty_iff_length_eq_zero,
        agree.length]
    cases direction with
    | forward => simp only [FlowGraph.along, FlowGraph.forward, agree.length, empty, agree.succ]
    | backward =>
      simp only [FlowGraph.along, FlowGraph.backward, FlowGraph.exits, agree.length, agree.succ,
        agree.prev]
  rw [domTree, domTree, graph]

/-- The branch at the end of a block at a place. -/
private def branchOf? (place : Nat) (outline : Outline) : Option Candidate :=
  match outline.terminator with
  | some (.branch _ condition onTrue onFalse) => some ⟨place, condition, [onTrue, onFalse]⟩
  | _ => none

theorem branch (agree : func.Agree other) (place : Nat) :
    EarlyExit.branchAt? func place = EarlyExit.branchAt? other place := by
  have outlined : ∀ func : Func, EarlyExit.branchAt? func place =
      (func.blocks[place]?.map Block.outline).bind (branchOf? place) := by
    intro func
    unfold EarlyExit.branchAt?
    cases func.blocks[place]? with
    | none => rfl
    | some block =>
      obtain ⟨_, _, _, terminator, _, _⟩ := block
      rcases terminator with _ | terminator
      · rfl
      · cases terminator <;> rfl
  rw [outlined, outlined, agree.outline_at]

/-- One step over a block that only jumps onwards, told by its outline. -/
private theorem skip_outlined (blocks : List Block) (unvisited : List Nat) (place : Nat) :
    EarlyExit.skipForwarding blocks unvisited place =
      match blocks[place]?.map Block.outline with
      | some ⟨_, _, _, [next], true⟩ =>
        if place ∈ unvisited then EarlyExit.skipForwarding blocks (unvisited.erase place) next
        else place
      | _ => place := by
  rw [EarlyExit.skipForwarding]
  cases blocks[place]? with
  | none => rfl
  | some block =>
    simp only [Option.map_some, Block.outline, Block.onlySucc?]
    rcases block.succ with _ | ⟨next, _ | ⟨_, _⟩⟩
    · rfl
    · cases block.isForwarding <;> simp
    · rfl

theorem skip (agree : func.Agree other) (unvisited : List Nat) (place : Nat) :
    EarlyExit.skipForwarding func.blocks unvisited place =
      EarlyExit.skipForwarding other.blocks unvisited place := by
  induction size : unvisited.length using Nat.strongRecOn generalizing unvisited place with
  | ind size ih =>
    rw [skip_outlined, skip_outlined, agree.outline_at]
    split
    · split
      · rename_i member
        have shorter := List.length_erase_of_mem member
        have positive := List.length_pos_of_mem member
        exact ih _ (by omega) _ _ rfl
      · rfl
    · rfl

theorem firstExit?_eq (agree : func.Agree other) (postDominates : Nat → Nat → Bool) (place : Nat)
    (labels : List Label) :
    EarlyExit.firstExit? func postDominates place labels =
      EarlyExit.firstExit? other postDominates place labels := by
  have successor : ∀ label, EarlyExit.successor? func place label =
      EarlyExit.successor? other place label := by
    intro label
    simp only [EarlyExit.successor?, agree.succ, agree.labelAt_eq]
  have representative : ∀ place, EarlyExit.representative func place =
      EarlyExit.representative other place := by
    intro place
    rw [EarlyExit.representative, EarlyExit.representative, agree.length, agree.skip]
  induction labels with
  | nil => rfl
  | cons label rest ih => simp only [EarlyExit.firstExit?, successor, representative, ih]

/-- Functions that agree have the same guard. -/
theorem guard (agree : func.Agree other) (region : Region) (postDominates : Nat → Nat → Bool) :
    EarlyExit.locate func region postDominates = EarlyExit.locate other region postDominates := by
  have branches : EarlyExit.branchAt? func = EarlyExit.branchAt? other := funext agree.branch
  simp only [EarlyExit.locate, branches, agree.labelAt_eq, agree.firstExit?_eq]

/-- Functions that agree are analysed alike. -/
theorem analysis (agree : func.Agree other) (region : Region) (postDominates : Nat → Nat → Bool)
    (symbols : IndexSymbols) :
    (Analysis.ofRegion func region postDominates symbols).value =
      (Analysis.ofRegion other region postDominates symbols).value := by
  have guard := congrArg Logged.value (agree.guard region postDominates)
  cases located : (EarlyExit.locate other region postDominates).value with
  | none => rw [Analysis.ofRegion_unlocated located, Analysis.ofRegion_unlocated (guard.trans located)]
  | some exit =>
    rw [Analysis.ofRegion_located located, Analysis.ofRegion_located (guard.trans located),
      Condition.survey_of_agree agree]

end Func.Agree

end KernelGuard
