import KernelGuard.Proofs.ConditionMeaning
import KernelGuard.Proofs.DefinitionErasure
import Mathlib.Data.Fintype.Card

/-! What an understood condition says. Where every conjunction has the value of its operands
and none depends on itself, the condition is true exactly when all the comparisons that it
reaches are. So a true condition makes every recorded comparison true, and handing `true` to
the readers of some of them leaves the conjunction of the others. -/
namespace KernelGuard

namespace Value

/-- The value with `true` in place of the reads of some temporaries. -/
def assuming (names : List Name) (value : Value) : Value :=
  names.foldl (fun value name => Value.substitute name (.bool true) value) value

private theorem assuming_constant {value : Value} (names : List Name)
    (constant : value.isConstant = true) :
    value.assuming names = value := by
  have unread : ∀ name, value.name? ≠ some name := by
    intro name read
    rw [isConstant, Option.isNone_iff_eq_none] at constant
    simp [name?, constant] at read
  induction names with
  | nil => rfl
  | cons name rest ih =>
    rw [assuming, List.foldl_cons, substitute, if_neg (unread name)]
    exact ih

/-- A temporary among the names becomes `true`, and any other value stays. -/
theorem assuming_temp (names : List Name) (temp : Temp) :
    (Value.temp temp).assuming names =
      if temp.name ∈ names then .bool true else .temp temp := by
  induction names with
  | nil => rfl
  | cons name rest ih =>
    rw [assuming, List.foldl_cons, substitute]
    by_cases same : temp.name = name
    · have read : (Value.temp temp).name? = some name := congrArg some same
      rw [if_pos read, if_pos (same ▸ List.mem_cons_self)]
      exact assuming_constant rest rfl
    · have unread : (Value.temp temp).name? ≠ some name := fun read => same (Option.some.inj read)
      rw [if_neg unread]
      refine ih.trans ?_
      simp [same]

end Value

namespace Func

/-- The function with `true` handed to every reader of some temporaries. -/
def assuming (func : Func) (names : List Name) : Func :=
  names.foldl (fun func name => func.substitute name (.bool true)) func

private theorem definition_substitute (func : Func) (name : Name) (value : Value) (read : Name) :
    (func.substitute name value).definition? read =
      (func.definition? read).map (Instr.mapOperands (Value.substitute name value)) := by
  rw [definition?, definition?, substitute, List.findSome?_map, List.map_findSome?]
  refine congrArg (List.findSome? · func.blocks) (funext fun block => ?_)
  have unchanged : (fun instr : Instr => instr.writes read) ∘
      Instr.mapOperands (Value.substitute name value) = fun instr => instr.writes read :=
    funext fun instr => Instr.writes_mapOperands _ instr read
  rw [Function.comp_apply, Block.body_mapOperands, List.find?_map, unchanged]
  rfl

/-- Every first definition stays, with the value in place of its reads. -/
theorem definition_assuming (func : Func) (names : List Name) (read : Name) :
    (func.assuming names).definition? read =
      (func.definition? read).map (Instr.mapOperands (Value.assuming names)) := by
  induction names generalizing func with
  | nil =>
    cases found : func.definition? read with
    | none => exact found
    | some definition => exact found.trans (congrArg some (Instr.mapOperands_id _).symm)
  | cons name rest ih =>
    refine (ih (func.substitute name (.bool true))).trans ?_
    rw [definition_substitute, Option.map_map]
    refine congrArg (Option.map · _) (funext fun definition => ?_)
    exact Instr.mapOperands_mapOperands _ _ definition

end Func

namespace Condition

variable {func : Func} {symbols : IndexSymbols} {condition value : Value} {truth : Name → Bool}
  {names : List Name}

/-- What a value comes to where every temporary is true or false. Numbers are neither, and count
as false. -/
def holds (truth : Name → Bool) : Value → Bool
  | .bool value => value
  | .temp temp => truth temp.name
  | _ => false

/-- The conjunctions that a condition reaches are true exactly when both their operands are. -/
def Conjoins (func : Func) (condition : Value) (truth : Name → Bool) : Prop :=
  ∀ temp definition lhs rhs, Reaches func condition (.temp temp) →
    func.definition? temp.name = some definition → Joins definition lhs rhs →
    truth temp.name = (holds truth lhs && holds truth rhs)

/-- A conjunction that defines a temporary first reads another one. -/
def DependsOn (func : Func) (name operand : Name) : Prop :=
  ∃ definition lhs rhs, func.definition? name = some definition ∧ Joins definition lhs rhs ∧
    (lhs.name? = some operand ∨ rhs.name? = some operand)

/-- No temporary that a condition reaches depends on itself. -/
def IsAcyclic (func : Func) (condition : Value) : Prop :=
  ∀ temp, Reaches func condition (.temp temp) →
    ¬Relation.TransGen (DependsOn func) temp.name temp.name

/-- The names of the comparisons that a condition reaches. -/
def comparisons (func : Func) (condition : Value) : Set Name :=
  { name | ∃ temp target kind predicate type lhs rhs, temp.name = name ∧
    Reaches func condition (.temp temp) ∧
    func.definition? name = some (.compare target kind predicate type lhs rhs) }

/-! ## The condition and its comparisons -/

private theorem leads_cases (leads : LeadsTo func value operand) :
    ∃ temp definition lhs rhs, value = .temp temp ∧
      func.definition? temp.name = some definition ∧ Joins definition lhs rhs ∧
      (operand = lhs ∨ operand = rhs) := by
  obtain ⟨definition, lhs, rhs, defined, joins, side⟩ := leads
  cases value with
  | temp temp => exact ⟨temp, definition, lhs, rhs, rfl, defined, joins, side⟩
  | bool | int | long | float | double => cases defined

/-- A true condition makes everything true that it reaches. -/
private theorem holds_of_reached (conjoins : Conjoins func condition truth)
    (true' : holds truth condition = true) (path : Reaches func condition value) :
    holds truth value = true := by
  induction path with
  | refl => exact true'
  | tail path leads ih =>
    obtain ⟨temp, definition, lhs, rhs, rfl, defined, joins, side⟩ := leads_cases leads
    have both : (holds truth lhs && holds truth rhs) = true :=
      (conjoins temp definition lhs rhs path defined joins).symm.trans ih
    rw [Bool.and_eq_true] at both
    rcases side with rfl | rfl
    · exact both.1
    · exact both.2

/-- What an understood condition reaches is a conjunction or a comparison. -/
private theorem reached_cases
    (accepted : ∀ value, Reaches func condition value → Accepted func symbols value)
    (path : Reaches func condition value) : ∃ temp, value = .temp temp ∧
      (temp.name ∈ conjunctions func condition ∨ temp.name ∈ comparisons func condition) := by
  obtain ⟨temp, definition, rfl, defined, ⟨lhs, rhs, joins⟩ | ⟨dimension, bound, bounds⟩⟩ :=
    accepted _ path
  · exact ⟨temp, rfl, .inl ⟨temp, definition, lhs, rhs, rfl, path, defined, joins⟩⟩
  · cases bounds with
    | less => exact ⟨temp, rfl, .inr ⟨temp, _, _, _, _, _, _, rfl, path, defined⟩⟩

/-- On finitely many conjunctions that do not depend on themselves, dependence comes to an end. -/
private theorem dependence_wf (finite : (conjunctions func condition).Finite)
    (acyclic : IsAcyclic func condition) :
    WellFounded fun operand name : conjunctions func condition =>
      Relation.TransGen (DependsOn func) name operand := by
  have : Finite (conjunctions func condition) := finite.to_subtype
  have : IsTrans (conjunctions func condition) fun operand name =>
      Relation.TransGen (DependsOn func) name operand :=
    ⟨fun _ _ _ first second => second.trans first⟩
  have : Std.Irrefl fun operand name : conjunctions func condition =>
      Relation.TransGen (DependsOn func) name operand :=
    ⟨fun ⟨_, temp, _, _, _, named, path, _⟩ cycle => acyclic temp path (named ▸ cycle)⟩
  exact Finite.wellFounded_of_trans_of_irrefl _

/-- Where every comparison is true, so is every conjunction, by induction on what it depends on. -/
private theorem conjunction_of_comparisons
    (accepted : ∀ value, Reaches func condition value → Accepted func symbols value)
    (finite : (conjunctions func condition).Finite) (acyclic : IsAcyclic func condition)
    (conjoins : Conjoins func condition truth)
    (all : ∀ name ∈ comparisons func condition, truth name = true) :
    ∀ name ∈ conjunctions func condition, truth name = true := by
  intro name member
  induction named : (⟨name, member⟩ : conjunctions func condition) using
    (dependence_wf finite acyclic).induction generalizing name with
  | h node ih =>
    subst named
    obtain ⟨temp, definition, lhs, rhs, rfl, path, defined, joins⟩ := id member
    have operand : ∀ operand, operand = lhs ∨ operand = rhs → holds truth operand = true := by
      intro operand side
      obtain ⟨inner, rfl, conjunction | comparison⟩ :=
        reached_cases accepted (path.tail ⟨definition, lhs, rhs, defined, joins, side⟩)
      · refine ih ⟨inner.name, conjunction⟩ (.single ⟨definition, lhs, rhs, defined, joins, ?_⟩)
          inner.name conjunction rfl
        exact side.imp (fun same => by rw [← same]; rfl) (fun same => by rw [← same]; rfl)
      · exact all inner.name comparison
    rw [conjoins temp definition lhs rhs path defined joins, operand lhs (.inl rfl),
      operand rhs (.inr rfl), Bool.and_self]

private theorem holds_iff
    (accepted : ∀ value, Reaches func condition value → Accepted func symbols value)
    (finite : (conjunctions func condition).Finite) (acyclic : IsAcyclic func condition)
    (conjoins : Conjoins func condition truth) :
    holds truth condition = true ↔ ∀ name ∈ comparisons func condition, truth name = true := by
  constructor
  · rintro true' name ⟨temp, target, kind, predicate, type, lhs, rhs, rfl, path, -⟩
    exact holds_of_reached conjoins true' path
  · intro all
    have joined := conjunction_of_comparisons accepted finite acyclic conjoins all
    obtain ⟨temp, rfl, conjunction | comparison⟩ := reached_cases accepted (.refl (a := condition))
    · exact joined temp.name conjunction
    · exact all temp.name comparison

/-! ## The condition with some comparisons assumed -/

/-- The values of the temporaries where some of them are assumed to be true. -/
private def assumed (names : List Name) (truth : Name → Bool) (name : Name) : Bool :=
  decide (name ∈ names) || truth name

private theorem holds_assuming (names : List Name) (truth : Name → Bool) (value : Value) :
    holds truth (value.assuming names) = holds (assumed names truth) value := by
  cases value with
  | temp temp =>
    rw [Value.assuming_temp]
    by_cases member : temp.name ∈ names <;> simp [holds, assumed, member]
  | bool | int | long | float | double => rw [Value.assuming_constant names rfl]; rfl

/-- A conjunction stays one when its operands change, and nothing else becomes one. -/
private theorem joins_mapOperands_iff {change : Value → Value} {definition : Instr}
    {lhs rhs : Value} : Joins (definition.mapOperands change) lhs rhs ↔
      ∃ left right, Joins definition left right ∧ change left = lhs ∧ change right = rhs := by
  constructor
  · rintro ⟨target, type, same⟩
    cases definition with
    | arith => cases same; exact ⟨_, _, ⟨target, type, rfl⟩, rfl, rfl⟩
    | compare | convert | load | store | elementPtr | call | phi | jump | branch | ret => cases same
  · rintro ⟨left, right, ⟨target, type, rfl⟩, rfl, rfl⟩
    exact ⟨target, type, rfl⟩

private theorem definition_assuming_of_joins {read : Name} {definition : Instr} {lhs rhs : Value}
    (names : List Name) (defined : func.definition? read = some definition) (joins : Joins definition lhs rhs) :
    ∃ made, (func.assuming names).definition? read = some made ∧
      Joins made (lhs.assuming names) (rhs.assuming names) :=
  ⟨_, (func.definition_assuming names read).trans (congrArg _ defined),
    joins_mapOperands_iff.mpr ⟨lhs, rhs, joins, rfl, rfl⟩⟩

/-- Assuming what is no conjunction leaves every path through conjunctions in place. -/
private theorem reaches_assuming (apart : ∀ name ∈ names, name ∉ conjunctions func condition)
    (path : Reaches func condition value) :
    Reaches (func.assuming names) (condition.assuming names) (value.assuming names) := by
  induction path with
  | refl => exact .refl
  | tail path leads ih =>
    obtain ⟨temp, definition, lhs, rhs, rfl, defined, joins, side⟩ := leads_cases leads
    have kept : temp.name ∉ names := fun member =>
      apart temp.name member ⟨temp, definition, lhs, rhs, rfl, path, defined, joins⟩
    obtain ⟨made, defined', joins'⟩ := definition_assuming_of_joins names defined joins
    rw [Value.assuming_temp, if_neg kept] at ih
    exact ih.tail ⟨made, _, _, defined', joins', side.imp (congrArg _) (congrArg _)⟩

/-- Values that suit the conjunctions with some comparisons assumed suit those of the condition
itself once these comparisons are true. -/
private theorem conjoins_assumed (apart : ∀ name ∈ names, name ∉ conjunctions func condition)
    (conjoins : Conjoins (func.assuming names) (condition.assuming names) truth) :
    Conjoins func condition (assumed names truth) := by
  intro temp definition lhs rhs path defined joins
  have kept : temp.name ∉ names := fun member =>
    apart temp.name member ⟨temp, definition, lhs, rhs, rfl, path, defined, joins⟩
  obtain ⟨made, defined', joins'⟩ := definition_assuming_of_joins names defined joins
  have path' := reaches_assuming apart path
  rw [Value.assuming_temp, if_neg kept] at path'
  calc assumed names truth temp.name
      = truth temp.name := by simp [assumed, kept]
    _ = (holds truth (lhs.assuming names) && holds truth (rhs.assuming names)) :=
        conjoins temp made _ _ path' defined' joins'
    _ = (holds (assumed names truth) lhs && holds (assumed names truth) rhs) := by
        rw [holds_assuming, holds_assuming]

private theorem comparison_not_conjunction (comparison : name ∈ comparisons func condition) :
    name ∉ conjunctions func condition := by
  rintro ⟨_, definition, lhs, rhs, -, -, defined, target, type, rfl⟩
  obtain ⟨_, _, _, _, _, _, _, -, -, compared⟩ := comparison
  rw [defined] at compared
  cases compared

/-- The comparison of a recorded fact is one that the condition reaches. -/
private theorem recorded_comparison {postDominates : Nat → Nat → Bool} {region : Region}
    {exit : EarlyExit} {dimension : Dimension} {fact : BoundFact}
    (located : (EarlyExit.locate func region postDominates).value = some exit)
    (recorded : (Analysis.ofRegion func region postDominates symbols).value.survey.facts.get
      dimension = some fact) :
    fact.compare.name ∈ comparisons func exit.condition := by
  obtain ⟨-, ⟨guard, found, path⟩, definition, defined, bounds⟩ := kept_fact_bounds recorded
  rw [located] at found
  cases found
  generalize fact.bound = bound at bounds
  cases bounds with
  | less => exact ⟨fact.compare, _, _, _, _, _, _, rfl, path, defined⟩

/-- An understood condition whose conjunctions do not depend on themselves is the conjunction of
the comparisons that it reaches, whatever values the temporaries have that suit the conjunctions.
A true condition makes the comparison of every recorded fact true, and with `true` handed to the
readers of some of these comparisons the condition is the conjunction of the remaining ones. -/
theorem understood_is_conjunction {postDominates : Nat → Nat → Bool} {region : Region}
    {exit : EarlyExit}
    (located : (EarlyExit.locate func region postDominates).value = some exit)
    (understood : (Analysis.ofRegion func region postDominates symbols).value.status =
      .understood)
    (acyclic : IsAcyclic func exit.condition) :
    let facts := (Analysis.ofRegion func region postDominates symbols).value.survey.facts
    (∀ truth, Conjoins func exit.condition truth →
      (holds truth exit.condition = true ↔
        ∀ name ∈ comparisons func exit.condition, truth name = true) ∧
      (holds truth exit.condition = true → ∀ dimension fact,
        facts.get dimension = some fact → truth fact.compare.name = true)) ∧
    ∀ names : List Name,
      (∀ name ∈ names, ∃ dimension fact,
        facts.get dimension = some fact ∧ fact.compare.name = name) →
      ∀ truth, Conjoins (func.assuming names) (exit.condition.assuming names) truth →
        (holds truth (exit.condition.assuming names) = true ↔
          ∀ name ∈ comparisons func exit.condition, name ∉ names → truth name = true) := by
  intro facts
  obtain ⟨accepted, finite⟩ := accepted_of_understood located understood
  refine ⟨fun truth conjoins => ?_, fun names recorded truth conjoins => ?_⟩
  · have conjunction := holds_iff accepted finite acyclic conjoins
    exact ⟨conjunction, fun true' dimension fact kept =>
      conjunction.mp true' _ (recorded_comparison located kept)⟩
  · have apart : ∀ name ∈ names, name ∉ conjunctions func exit.condition := by
      intro name member
      obtain ⟨dimension, fact, kept, rfl⟩ := recorded name member
      exact comparison_not_conjunction (recorded_comparison located kept)
    calc holds truth (exit.condition.assuming names) = true
        ↔ holds (assumed names truth) exit.condition = true := by rw [holds_assuming]
      _ ↔ ∀ name ∈ comparisons func exit.condition, assumed names truth name = true :=
          holds_iff accepted finite acyclic (conjoins_assumed apart conjoins)
      _ ↔ ∀ name ∈ comparisons func exit.condition, name ∉ names → truth name = true := by
          simp [assumed, or_iff_not_imp_left]

/-- The plane kernel has one conjunction, of its two comparisons. -/
private theorem plane_joins {name : Name} {definition : Instr} {lhs rhs : Value}
    (defined : planeKernel.definition? name = some definition) (joins : Joins definition lhs rhs) :
    name = ⟨"c", false⟩ ∧ lhs = .temp (.ofLocal "a" .i1) ∧ rhs = .temp (.ofLocal "b" .i1) := by
  obtain ⟨block, member, found⟩ := List.exists_of_findSome?_eq_some defined
  obtain ⟨target, type, rfl⟩ := joins
  have written := List.find?_some found
  have inside := List.mem_of_find?_eq_some found
  simp only [planeKernel, List.mem_cons, List.not_mem_nil, or_false] at member
  rcases member with rfl | rfl | rfl <;> simp [Block.body] at inside
  obtain ⟨rfl, -, rfl, rfl⟩ := inside
  exact ⟨by simpa [Instr.writes, Instr.target?, Temp.ofLocal, Temp.name, eq_comm] using written,
    rfl, rfl⟩

/-- A comparison of the plane kernel depends on nothing. -/
private theorem plane_acyclic :
    IsAcyclic planeKernel (.temp (.ofLocal "c" .i1)) := by
  have steps : ∀ name operand, DependsOn planeKernel name operand →
      name = ⟨"c", false⟩ ∧ operand ≠ ⟨"c", false⟩ := by
    rintro name operand ⟨definition, lhs, rhs, defined, joins, side⟩
    obtain ⟨rfl, rfl, rfl⟩ := plane_joins defined joins
    refine ⟨rfl, ?_⟩
    rcases side with read | read <;> cases read <;> decide
  intro temp _ cycle
  obtain ⟨middle, first, -⟩ := Relation.TransGen.head'_iff.mp cycle
  obtain ⟨previous, -, last⟩ := Relation.TransGen.tail'_iff.mp cycle
  exact (steps _ _ last).2 (steps _ _ first).1

/-- The values where only the first comparison is true suit the conjunction of the plane kernel
and make its condition false. With `true` handed to the readers of this comparison, the condition
is true as soon as the second one is. -/
theorem plane_is_conjunction :
    (¬∀ name ∈ comparisons planeKernel (.temp (.ofLocal "c" .i1)),
      decide (name = ⟨"a", false⟩) = true) ∧
    ∀ name ∈ comparisons planeKernel (.temp (.ofLocal "c" .i1)), name ∉ [⟨"a", false⟩] →
      decide (name ≠ ⟨"a", false⟩) = true := by
  have understood : (Analysis.ofRegion planeKernel (Region.whole planeKernel)
      (planeKernel.domTree .backward).dominates .standard).value.status = .understood := by
    rw [Analysis.ofRegion_located planeGuard_located]
    cbv
  have recorded : ∀ name ∈ [(⟨"a", false⟩ : Name)], ∃ dimension fact,
      (Analysis.ofRegion planeKernel (Region.whole planeKernel)
        (planeKernel.domTree .backward).dominates .standard).value.survey.facts.get dimension =
        some fact ∧ fact.compare.name = name := by
    intro name member
    cases List.mem_singleton.mp member
    refine ⟨.x, ⟨.x, .ofLocal "a" .i1, .temp (.ofLocal "n" .i32), "%a = icmp ult i32 %i, %n"⟩,
      ?_, rfl⟩
    rw [Analysis.ofRegion_located planeGuard_located]
    cbv
  obtain ⟨whole, remaining⟩ :=
    understood_is_conjunction planeGuard_located understood plane_acyclic
  constructor
  · refine fun all => absurd ((whole _ ?_).1.mpr all) (by decide)
    intro temp definition lhs rhs _ defined joins
    obtain ⟨named, rfl, rfl⟩ := plane_joins defined joins
    rw [named]
    decide
  · refine (remaining _ recorded _ ?_).mp (by decide)
    intro temp definition lhs rhs _ defined joins
    rw [Func.definition_assuming, Option.map_eq_some_iff] at defined
    obtain ⟨original, defined, rfl⟩ := defined
    obtain ⟨left, right, before, rfl, rfl⟩ := joins_mapOperands_iff.mp joins
    obtain ⟨named, rfl, rfl⟩ := plane_joins defined before
    rw [named]
    decide

end Condition

end KernelGuard
