import KernelGuard.Flow.Program
import KernelGuard.Proofs.ConditionMeaning

/-! Where bound facts come from. A comparison counts for a dimension by the spelling of
the address that its index is loaded from, so the symbol's global counts and so does a
local temporary of the same spelling. Where no such temporary is loaded from, every
fact is about the work-item's own index. -/
namespace KernelGuard.Analysis

open Condition

/-- A value is loaded from the address that a name stands for. -/
def LoadedFrom (func : Func) (value : Value) (name : Name) : Prop :=
  ∃ target type address, definitionOf? func value = some (.load target type (.temp address)) ∧
    address.name = name

/-- The comparison of a fact tests an index that is made from what is loaded from the
address that a name stands for. -/
def TestsIndexFrom (func : Func) (fact : BoundFact) (name : Name) : Prop :=
  ∃ target predicate type index a b,
    func.definition? fact.compare.name =
      some (.compare target .icmp predicate type index fact.bound) ∧
    (predicate = .ult ∨ predicate = .slt) ∧ IsSum func index a b ∧
    (LoadedFrom func a name ∨ LoadedFrom func b name)

/-- The global that holds a work-item's index in a dimension. -/
def indexGlobal (symbols : IndexSymbols) (dimension : Dimension) : Name :=
  ⟨symbols.get dimension, true⟩

/-- A local temporary that is spelled like the symbol of a dimension. -/
def namesake (symbols : IndexSymbols) (dimension : Dimension) : Name :=
  ⟨symbols.get dimension, false⟩

/-- An instruction loads from the address that a name stands for. -/
def LoadsFrom (func : Func) (name : Name) : Prop :=
  ∃ block ∈ func.blocks, ∃ target type address,
    Instr.load target type (.temp address) ∈ block.body ∧ address.name = name

variable {func : Func} {region : Region} {postDominates : Nat → Nat → Bool}
  {symbols : IndexSymbols} {fact : BoundFact} {dimension : Dimension}

theorem mem_boundFacts_iff {analysis : Analysis} :
    fact ∈ analysis.boundFacts ↔ ∃ dimension, analysis.usable? dimension = some fact := by
  rw [boundFacts, List.mem_filterMap]
  refine ⟨fun ⟨dimension, _, usable⟩ => ⟨dimension, usable⟩, fun ⟨dimension, usable⟩ => ?_⟩
  exact ⟨dimension, by cases dimension <;> simp [Dimension.all], usable⟩

/-- A removal that changes a function folds the comparison of a usable fact. -/
private theorem removal_folds_usable {analysis : Analysis} {later : Func}
    (changed : (analysis.removeUpperBound dimension later).value.changed = true) :
    ∃ fact, analysis.usable? dimension = some fact ∧
      later.replaceDefinition? fact.compare.name (.bool true) =
        some (analysis.removeUpperBound dimension later).value.func := by
  cases usable : analysis.usable? dimension with
  | none => simp [removeUpperBound, usable] at changed
  | some fact =>
    refine ⟨fact, rfl, ?_⟩
    by_cases spent : analysis.removed.get dimension = true
    · simp [removeUpperBound, usable, spent] at changed
    · cases replaced : later.replaceDefinition? fact.compare.name (.bool true) with
      | none => simp [removeUpperBound, usable, spent, replaced] at changed
      | some result => simp [removeUpperBound, usable, spent, replaced]

/-- The index of a dimension is loaded from its global or from a namesake. -/
private theorem loaded_by_spelling (loads : LoadsIndex func symbols value dimension) :
    LoadedFrom func value (indexGlobal symbols dimension) ∨
      LoadedFrom func value (namesake symbols dimension) := by
  obtain ⟨target, type, address, loaded, named⟩ := loads
  have spelling : symbols.get dimension = address.name.spelling := by
    simpa using List.find?_some named
  obtain ⟨⟨spelled, isGlobal⟩, addressType⟩ := address
  cases isGlobal
  · exact .inr ⟨target, type, _, loaded, by simp [namesake, spelling]⟩
  · exact .inl ⟨target, type, _, loaded, by simp [indexGlobal, spelling]⟩

private theorem loadsFrom_of_loaded (loaded : LoadedFrom func value name) :
    LoadsFrom func name := by
  obtain ⟨target, type, address, defined, rfl⟩ := loaded
  obtain ⟨read, -, found⟩ := Option.bind_eq_some_iff.mp defined
  obtain ⟨block, member, inside⟩ := List.exists_of_findSome?_eq_some found
  exact ⟨block, member, target, type, address, List.mem_of_find?_eq_some inside, rfl⟩

private theorem usable_tests_index
    (usable : (ofRegion func region postDominates symbols).value.usable? dimension = some fact) :
    TestsIndexFrom func fact (indexGlobal symbols dimension) ∨
      TestsIndexFrom func fact (namesake symbols dimension) := by
  obtain ⟨-, -, definition, defined, bounds⟩ := kept_fact_bounds (kept_of_usable usable)
  generalize same : fact.bound = bound at bounds
  cases bounds with
  | @less _ target _ predicate type index a b order _ sum loads =>
    have tests : ∀ name, LoadedFrom func a name ∨ LoadedFrom func b name →
        TestsIndexFrom func fact name := fun name loaded =>
      ⟨target, predicate, type, index, a, b, same ▸ defined, order, sum, loaded⟩
    rcases loads with left | right
    · exact (loaded_by_spelling left).imp (tests _ ∘ .inl) (tests _ ∘ .inl)
    · exact (loaded_by_spelling right).imp (tests _ ∘ .inr) (tests _ ∘ .inr)

/-- Every fact is about what is loaded from the global of its dimension or from a local
temporary of the same spelling. In a function that loads from no such temporary every
fact is about the global, and a removal folds nothing else. -/
theorem facts_tested_by_spelling (func : Func) (region : Region)
    (postDominates : Nat → Nat → Bool) (symbols : IndexSymbols) :
    let analysis := (ofRegion func region postDominates symbols).value
    (∀ fact ∈ analysis.boundFacts,
      TestsIndexFrom func fact (indexGlobal symbols fact.dimension) ∨
        TestsIndexFrom func fact (namesake symbols fact.dimension)) ∧
    ((∀ dimension, ¬LoadsFrom func (namesake symbols dimension)) →
      (∀ fact ∈ analysis.boundFacts,
        TestsIndexFrom func fact (indexGlobal symbols fact.dimension)) ∧
      ∀ dimension later, (analysis.removeUpperBound dimension later).value.changed = true →
        ∃ fact, fact.dimension = dimension ∧
          TestsIndexFrom func fact (indexGlobal symbols dimension) ∧
          later.replaceDefinition? fact.compare.name (.bool true) =
            some (analysis.removeUpperBound dimension later).value.func) := by
  intro analysis
  have own : (∀ dimension, ¬LoadsFrom func (namesake symbols dimension)) →
      ∀ {dimension fact}, analysis.usable? dimension = some fact →
        TestsIndexFrom func fact (indexGlobal symbols dimension) := by
    intro alone dimension fact usable
    refine (usable_tests_index usable).resolve_right ?_
    rintro ⟨_, _, _, _, _, _, _, _, _, left | right⟩
    · exact alone dimension (loadsFrom_of_loaded left)
    · exact alone dimension (loadsFrom_of_loaded right)
  refine ⟨fun fact member => ?_, fun alone => ⟨fun fact member => ?_, ?_⟩⟩
  · obtain ⟨dimension, usable⟩ := mem_boundFacts_iff.mp member
    obtain ⟨rfl, -⟩ := kept_fact_bounds (kept_of_usable usable)
    exact usable_tests_index usable
  · obtain ⟨dimension, usable⟩ := mem_boundFacts_iff.mp member
    obtain ⟨rfl, -⟩ := kept_fact_bounds (kept_of_usable usable)
    exact own alone usable
  · intro dimension later changed
    obtain ⟨fact, usable, folded⟩ := removal_folds_usable changed
    exact ⟨fact, (kept_fact_bounds (kept_of_usable usable)).1, own alone usable, folded⟩

/-- The plane kernel loads its indices from the globals alone, so its second fact is about
the global of the second dimension. -/
theorem plane_facts_from_globals :
    let analysis := (ofRegion planeKernel (Region.whole planeKernel)
      (planeKernel.domTree .backward).dominates .standard).value
    let fact : BoundFact :=
      ⟨.y, .ofLocal "b" .i1, .temp (.ofLocal "m" .i32), "%b = icmp slt i32 %j, %m"⟩
    fact ∈ analysis.boundFacts ∧ (∀ dimension, ¬LoadsFrom planeKernel (namesake .standard dimension)) ∧
      TestsIndexFrom planeKernel fact ⟨"_local_id_y", true⟩ := by
  intro analysis fact
  have member : fact ∈ analysis.boundFacts := by
    rw [show analysis = _ from ofRegion_located planeGuard_located]
    decide +kernel
  have alone : ∀ dimension, ¬LoadsFrom planeKernel (namesake .standard dimension) := by
    rintro dimension ⟨block, inside, target, type, address, loads, named⟩
    simp only [planeKernel, List.mem_cons, List.not_mem_nil, or_false] at inside
    rcases inside with rfl | rfl | rfl
    · have global : address = .ofGlobal "_local_id_x" ∨ address = .ofGlobal "_local_id_y" := by
        simp only [Block.body, List.map_nil, List.nil_append, List.mem_cons, Instr.load.injEq,
          Value.temp.injEq, reduceCtorEq, List.not_mem_nil, or_false] at loads
        exact loads.imp (·.2.2) (·.2.2)
      rcases global with rfl | rfl <;> cases congrArg Name.isGlobal named
    · simp [Block.body] at loads
    · simp [Block.body] at loads
  exact ⟨member, alone, ((facts_tested_by_spelling _ _ _ _).2 alone).1 fact member⟩

/-- A kernel whose caller hands it a table under the name of the work-item's index. -/
def namesakeText : String :=
  "define void @pick(ptr %_local_id_x, i32 %n) \x7b\nentry:\n" ++
  "  %x = load i32, ptr %_local_id_x\n  %i = add i32 %x, 0\n  %c = icmp ult i32 %i, %n\n" ++
  "  br i1 %c, label %body, label %exit\nbody:\n  call void @work()\n  br label %exit\n" ++
  "exit:\n  ret void\n\x7d\n"

def namesakeKernel : Func where
  name := "pick"
  returnType := .void
  params := [.ofLocal "_local_id_x" .ptr, .ofLocal "n" .i32]
  blocks := [
    { label := "entry", phis := [],
      instrs := [
        .load (.ofLocal "x" .i32) .i32 (.temp (.ofLocal "_local_id_x" .ptr)),
        .arith (.ofLocal "i" .i32) .add .i32 (.temp (.ofLocal "x" .i32)) (.int 0),
        .compare (.ofLocal "c" .i1) .icmp .ult .i32 (.temp (.ofLocal "i" .i32))
          (.temp (.ofLocal "n" .i32))],
      terminator := some (.branch .i1 (.temp (.ofLocal "c" .i1)) "body" "exit"),
      prev := [], succ := [1, 2] },
    { label := "body", phis := [], instrs := [.call none .void "work" []],
      terminator := some (.jump "exit"), prev := [0], succ := [2] },
    { label := "exit", phis := [], instrs := [], terminator := some (.ret none),
      prev := [0, 1], succ := [] }]
  names := ⟨0, ["c", "i", "x", "n", "_local_id_x"]⟩

/-- A load through a namesake yields a fact, and the comparison with what the caller's
table holds is folded as if it tested the work-item. -/
theorem namesake_folded : ∃ fact,
    Program.ofText namesakeText = .ok ⟨[], [namesakeKernel]⟩ ∧
    let analysis := (ofRegion namesakeKernel (Region.whole namesakeKernel)
      (namesakeKernel.domTree .backward).dominates .standard).value
    fact ∈ analysis.boundFacts ∧
      ¬TestsIndexFrom namesakeKernel fact (indexGlobal .standard fact.dimension) ∧
      (analysis.removeXUpperBound namesakeKernel).value.changed = true := by
  refine ⟨⟨.x, .ofLocal "c" .i1, .temp (.ofLocal "n" .i32), "%c = icmp ult i32 %i, %n"⟩,
    by decide +kernel, ?_⟩
  intro analysis
  have located : (EarlyExit.locate namesakeKernel (Region.whole namesakeKernel)
      (namesakeKernel.domTree .backward).dominates).value =
        some ⟨"entry", "exit", .temp (.ofLocal "c" .i1)⟩ := by
    cbv
  rw [show analysis = _ from ofRegion_located located]
  refine ⟨by decide +kernel, ?_, by decide +kernel⟩
  rintro ⟨target, predicate, type, index, a, b, defined, -, sum, loads⟩
  cases defined
  -- the index is the sum of what is loaded through the namesake and nothing
  obtain ⟨origin, target, type, sum, rfl | ⟨narrow, source, result, narrows⟩⟩ := sum
  · cases sum
    rcases loads with ⟨target, type, address, loaded, named⟩ | ⟨target, type, address, loaded, -⟩
    · cases loaded
      cases named
    · cases loaded
  · cases narrows

end KernelGuard.Analysis
