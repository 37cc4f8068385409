import KernelGuard.Proofs.ConditionMeaning
import KernelGuard.Proofs.DefinitionErasure

/-! What happens to an analysis while its function lives on. Bounds are removed at any
time, in any order and any number of times, and between the removals the function changes
in ways the analysis knows nothing of. What the analysis reports is settled when it is
made; only the record of the dimensions that have had their turn grows. -/
namespace KernelGuard

/-- The removals on offer. -/
inductive Remover where
  | x
  | y
deriving DecidableEq

namespace Remover

/-- The dimension whose bound is removed. -/
def dimension : Remover → Dimension
  | x => .x
  | y => .y

def run : Remover → Analysis → Func → Logged Removal
  | x => Analysis.removeXUpperBound
  | y => Analysis.removeYUpperBound

end Remover

/-- What can happen to an analysis and its function. -/
inductive Action where
  | remove (remover : Remover)
  | edit (change : Func → Func)

/-- An analysis beside the function as it is now. -/
structure Session where
  analysis : Analysis
  func : Func

namespace Session

/-- What a removal answers and leaves behind. -/
def removal (session : Session) (remover : Remover) : Removal :=
  (remover.run session.analysis session.func).value

/-- What an action leaves behind. -/
def next (session : Session) : Action → Session
  | .remove remover => ⟨(session.removal remover).analysis, (session.removal remover).func⟩
  | .edit change => { session with func := change session.func }

/-- What several actions leave behind, one after the other. -/
def after (session : Session) (actions : List Action) : Session := actions.foldl next session

/-- The session that begins when a region is analysed. -/
def start (func : Func) (region : Region) (postDominates : Nat → Nat → Bool)
    (symbols : IndexSymbols) : Session :=
  ⟨(Analysis.ofRegion func region postDominates symbols).value, func⟩

end Session

namespace Analysis

/-- The analysis once a dimension has had its turn. -/
def spend (analysis : Analysis) (dimension : Dimension) : Analysis :=
  { analysis with removed := analysis.removed.set dimension true }

/-- Whether the turn of a dimension is still to come: its fact is usable and it has had no
turn. -/
def isDue (analysis : Analysis) (dimension : Dimension) : Bool :=
  (analysis.usable? dimension).isSome && !analysis.removed.get dimension

end Analysis

namespace Session

variable {session now : Session} {remover : Remover}

/-! ## What one removal does -/

/-- A dimension that is not due leaves everything as it is. -/
theorem removal_of_idle (idle : session.analysis.isDue remover.dimension = false) :
    session.removal remover = ⟨session.analysis, session.func, false⟩ := by
  have general : ∀ dimension, session.analysis.isDue dimension = false →
      (session.analysis.removeUpperBound dimension session.func).value =
        ⟨session.analysis, session.func, false⟩ := by
    intro dimension idle
    unfold Analysis.removeUpperBound
    cases usable : session.analysis.usable? dimension with
    | none => rfl
    | some fact =>
      have spent : session.analysis.removed.get dimension = true := by
        simpa [Analysis.isDue, usable] using idle
      simp [spent]
  cases remover <;> exact general _ idle

/-- A dimension that is due has its comparison folded, where it is still defined, and its
turn is over either way. -/
theorem removal_of_due (usable : session.analysis.usable? remover.dimension = some fact)
    (unspent : session.analysis.removed.get remover.dimension = false) :
    session.removal remover = ⟨session.analysis.spend remover.dimension,
      session.func.folded fact.compare.name, session.func.defines fact.compare.name⟩ := by
  have general : ∀ dimension, session.analysis.usable? dimension = some fact →
      session.analysis.removed.get dimension = false →
        (session.analysis.removeUpperBound dimension session.func).value =
          ⟨session.analysis.spend dimension, session.func.folded fact.compare.name,
            session.func.defines fact.compare.name⟩ := by
    intro dimension usable unspent
    have defined := session.func.replaceDefinition?_isSome fact.compare.name (.bool true)
    unfold Analysis.removeUpperBound
    cases replaced : session.func.replaceDefinition? fact.compare.name (.bool true) with
    | none =>
      rw [replaced, Option.isSome_none] at defined
      simp [usable, unspent, replaced, ← defined, Func.folded, Analysis.spend]
    | some changed =>
      rw [replaced, Option.isSome_some] at defined
      simp [usable, unspent, replaced, ← defined, Func.folded, Analysis.spend]
  cases remover <;> exact general _ usable unspent

/-- Either a dimension is not due, or its fact is usable and it has had no turn. -/
theorem idle_or_due (session : Session) (remover : Remover) :
    session.analysis.isDue remover.dimension = false ∨
      ∃ fact, session.analysis.usable? remover.dimension = some fact ∧
        session.analysis.removed.get remover.dimension = false := by
  cases usable : session.analysis.usable? remover.dimension with
  | none => exact .inl (by simp [Analysis.isDue, usable])
  | some fact =>
    by_cases spent : session.analysis.removed.get remover.dimension = true
    · exact .inl (by simp [Analysis.isDue, spent])
    · exact .inr ⟨fact, rfl, eq_false_of_ne_true spent⟩

/-- A removal answers that it changed something exactly when an instruction is gone. -/
theorem changed_iff_code_ne :
    (session.removal remover).changed = true ↔
      (session.removal remover).func.code ≠ session.func.code := by
  rcases session.idle_or_due remover with idle | ⟨fact, usable, unspent⟩
  · simp [removal_of_idle idle]
  · rw [removal_of_due usable unspent]
    constructor
    · exact Func.code_folded_ne
    · intro changed
      by_contra undefined
      exact changed (by rw [Func.folded_of_undefined (eq_false_of_ne_true undefined)])

/-- A removal that answers no has left the function as it was. -/
theorem func_of_unchanged (unchanged : (session.removal remover).changed = false) :
    (session.removal remover).func = session.func := by
  rcases session.idle_or_due remover with idle | ⟨fact, usable, unspent⟩
  · rw [removal_of_idle idle]
  · rw [removal_of_due usable unspent] at unchanged ⊢
    exact Func.folded_of_undefined unchanged

/-! ## What any number of actions keep -/

/-- What is kept of an earlier session: all that is reported, and every turn that has been. -/
structure Keeps (session now : Session) : Prop where
  earlyExit : now.analysis.earlyExit = session.analysis.earlyExit
  survey : now.analysis.survey = session.analysis.survey
  removed : ∀ dimension, session.analysis.removed.get dimension = true →
    now.analysis.removed.get dimension = true

theorem keeps_next (session : Session) (action : Action) : session.Keeps (session.next action) := by
  cases action with
  | edit change => exact ⟨rfl, rfl, fun _ spent => spent⟩
  | remove remover =>
    rcases session.idle_or_due remover with idle | ⟨fact, usable, unspent⟩
    · simp only [next, removal_of_idle idle]
      exact ⟨rfl, rfl, fun _ spent => spent⟩
    · simp only [next, removal_of_due usable unspent]
      refine ⟨rfl, rfl, fun dimension spent => ?_⟩
      simp only [Analysis.spend, PerDimension.get_set]
      split
      · rfl
      · exact spent

theorem keeps_after (session : Session) (actions : List Action) :
    session.Keeps (session.after actions) := by
  induction actions generalizing session with
  | nil => exact ⟨rfl, rfl, fun _ spent => spent⟩
  | cons action rest ih =>
    have step := session.keeps_next action
    have run := ih (session.next action)
    exact ⟨run.earlyExit.trans step.earlyExit, run.survey.trans step.survey,
      fun dimension spent => run.removed dimension (step.removed dimension spent)⟩

theorem Keeps.usable (keeps : session.Keeps now) (dimension : Dimension) :
    now.analysis.usable? dimension = session.analysis.usable? dimension := by
  simp only [Analysis.usable?, keeps.survey]

theorem Keeps.status (keeps : session.Keeps now) :
    now.analysis.status = session.analysis.status := by
  simp only [Analysis.status, keeps.survey, keeps.earlyExit]

/-- A removal that answers yes has spent the turn of its dimension. -/
theorem spent_of_changed (changed : (session.removal remover).changed = true) :
    (session.next (.remove remover)).analysis.removed.get remover.dimension = true := by
  rcases session.idle_or_due remover with idle | ⟨fact, usable, unspent⟩
  · rw [removal_of_idle idle] at changed
    cases changed
  · simp [next, removal_of_due usable unspent, Analysis.spend, PerDimension.get_set]

/-- Once a removal has answered yes, it answers no ever after. -/
theorem unchanged_ever_after (changed : (session.removal remover).changed = true)
    (later : List Action) :
    (((session.next (.remove remover)).after later).removal remover).changed = false := by
  have spent := (keeps_after _ later).removed _ (spent_of_changed changed)
  rw [removal_of_idle (by simp [Analysis.isDue, spent])]

/-- A dimension no action was for has had no turn unless it had one before. -/
theorem removed_after_others {actions : List Action} {dimension : Dimension}
    (others : ∀ remover, .remove remover ∈ actions → remover.dimension ≠ dimension) :
    (session.after actions).analysis.removed.get dimension =
      session.analysis.removed.get dimension := by
  induction actions generalizing session with
  | nil => rfl
  | cons action rest ih =>
    rw [after, List.foldl_cons, ← after,
      ih fun remover member => others remover (List.mem_cons_of_mem _ member)]
    cases action with
    | edit change => rfl
    | remove remover =>
      have different := others remover List.mem_cons_self
      rcases session.idle_or_due remover with idle | ⟨fact, usable, unspent⟩
      · simp only [next, removal_of_idle idle]
      · simp [next, removal_of_due usable unspent, Analysis.spend, PerDimension.get_set, different]

/-! ## The order of two removals -/

/-- The function a removal leaves behind, told by its fact and its turn alone. -/
theorem removal_func (session : Session) (remover : Remover) :
    (session.removal remover).func =
      if session.analysis.isDue remover.dimension then
        ((session.analysis.usable? remover.dimension).map fun fact =>
          session.func.folded fact.compare.name).getD session.func
      else session.func := by
  rcases session.idle_or_due remover with idle | ⟨fact, usable, unspent⟩
  · simp [removal_of_idle idle, idle]
  · simp [removal_of_due usable unspent, Analysis.isDue, usable, unspent]

private theorem due_after_other (different : remover.dimension ≠ dimension) :
    (session.next (.remove remover)).analysis.isDue dimension = session.analysis.isDue dimension := by
  have removed : ((session.after [.remove remover]).analysis.removed.get dimension) = _ :=
    removed_after_others (by simpa using different)
  rw [Analysis.isDue, Analysis.isDue, (session.keeps_next _).usable]
  exact congrArg _ (congrArg _ removed)

/-- Two bounds are removed in either order. -/
theorem removals_commute (session : Session) (first second : Remover) :
    (session.after [.remove first, .remove second]).func =
      (session.after [.remove second, .remove first]).func := by
  by_cases same : first = second
  · rw [same]
  have apart : first.dimension ≠ second.dimension := by
    cases first <;> cases second <;> simp_all [Remover.dimension]
  have two : ∀ first second : Remover, (session.after [.remove first, .remove second]).func =
      ((session.next (.remove first)).removal second).func := fun _ _ => rfl
  have one : ∀ remover : Remover, (session.next (.remove remover)).func =
      (session.removal remover).func := fun _ => rfl
  rw [two, two, removal_func, removal_func, due_after_other apart, due_after_other (Ne.symm apart),
    (session.keeps_next _).usable, (session.keeps_next _).usable, one, one, removal_func,
    removal_func]
  cases session.analysis.usable? first.dimension <;>
    cases session.analysis.usable? second.dimension <;>
    cases session.analysis.isDue first.dimension <;>
    cases session.analysis.isDue second.dimension <;>
    simp [Func.folded_comm]

/-! ## Sessions from the start -/

variable {func : Func} {region : Region} {postDominates : Nat → Nat → Bool}
  {symbols : IndexSymbols}

private theorem start_removed (dimension : Dimension) :
    (start func region postDominates symbols).analysis.removed.get dimension = false := by
  cases located : (EarlyExit.locate func region postDominates).value with
  | none => simp [start, Analysis.ofRegion_unlocated located]
  | some exit => simp [start, Analysis.ofRegion_located located]

/-- A usable fact comes with a guard that is understood. -/
private theorem start_understood
    (kept : (start func region postDominates symbols).analysis.survey.facts.get dimension =
      some fact)
    (understood : (start func region postDominates symbols).analysis.survey.understood = true) :
    (start func region postDominates symbols).analysis.status = .understood := by
  cases located : (EarlyExit.locate func region postDominates).value with
  | none => simp [start, Analysis.ofRegion_unlocated located, Survey.empty] at kept
  | some exit =>
    have guard : (start func region postDominates symbols).analysis.earlyExit = some exit := by
      simp [start, Analysis.ofRegion_located located]
    simp [Analysis.status, guard, understood]

private theorem self_mem_upTo (dimension : Dimension) : dimension ∈ dimension.upTo := by
  cases dimension <;> decide

/-- A bound is answered exactly when the guard is understood and no dimension up to the one
asked for lacks a fact. -/
private theorem start_bound_iff (dimension : Dimension) :
    let analysis := (start func region postDominates symbols).analysis
    (analysis.upperBound? dimension).isSome = true ↔
      analysis.status = .understood ∧
        ∀ lower ∈ dimension.upTo, (analysis.survey.facts.get lower).isSome = true := by
  intro analysis
  constructor
  · intro answered
    obtain ⟨fact, usable⟩ := Option.isSome_iff_exists.mp (by
      simpa [Analysis.upperBound?] using answered)
    have kept := Analysis.kept_of_usable usable
    unfold Analysis.usable? at usable
    split at usable
    · rename_i available
      exact ⟨start_understood kept available.1, List.all_eq_true.mp available.2⟩
    · cases usable
  · rintro ⟨understood, known⟩
    have survey : analysis.survey.understood = true := by
      unfold Analysis.status at understood
      split at understood
      · cases understood
      · by_contra unclear
        simp [unclear] at understood
    have available : analysis.survey.understood ∧
        dimension.upTo.all (fun lower => (analysis.survey.facts.get lower).isSome) :=
      ⟨survey, List.all_eq_true.mpr known⟩
    rw [Analysis.upperBound?, Option.isSome_map, Analysis.usable?, if_pos available]
    exact known dimension (self_mem_upTo dimension)

/-- The comparison of a usable fact is defined in the function that was analysed. -/
private theorem start_defines
    (usable : (start func region postDominates symbols).analysis.usable? dimension = some fact) :
    func.defines fact.compare.name = true := by
  obtain ⟨-, -, definition, defined, -⟩ :=
    Condition.kept_fact_bounds (Analysis.kept_of_usable usable)
  obtain ⟨block, member, inside, writes⟩ := Func.definition_inside defined
  exact Func.defines_iff.mpr ⟨block, member, definition, inside, writes⟩

/-- Whatever is removed and however the function is edited, the analysis reports what it
reported when it was made. Each removal answers whether it took instructions out of the
function as it is then, and answers yes once at most. One without a usable fact does
nothing. The first one for its dimension does its work if the function is as it was
analysed. Two removals in a row may change places. -/
theorem report_outlives_removals (func : Func) (region : Region)
    (postDominates : Nat → Nat → Bool) (symbols : IndexSymbols) (actions : List Action) :
    let began := start func region postDominates symbols
    let now := began.after actions
    (now.analysis.status = began.analysis.status ∧
      now.analysis.earlyExit = began.analysis.earlyExit ∧
      (∀ dimension, now.analysis.upperBound? dimension = began.analysis.upperBound? dimension) ∧
      now.analysis.boundFacts = began.analysis.boundFacts) ∧
    (∀ dimension, (now.analysis.upperBound? dimension).isSome = true ↔
      now.analysis.status = .understood ∧
        ∀ lower ∈ dimension.upTo, (now.analysis.survey.facts.get lower).isSome = true) ∧
    (∀ remover,
      ((now.removal remover).changed = true ↔
        (now.removal remover).func.code ≠ now.func.code) ∧
      ((now.removal remover).changed = false → (now.removal remover).func = now.func) ∧
      ((now.removal remover).changed = true → ∀ later,
        (((now.next (.remove remover)).after later).removal remover).changed = false) ∧
      (now.analysis.usable? remover.dimension = none →
        now.removal remover = ⟨now.analysis, now.func, false⟩) ∧
      ((∀ other, .remove other ∈ actions → other ≠ remover) → now.func = func →
        (now.analysis.usable? remover.dimension).isSome = true →
          (now.removal remover).changed = true)) ∧
    ∀ first second, (now.after [.remove first, .remove second]).func =
      (now.after [.remove second, .remove first]).func := by
  intro began now
  have keeps : began.Keeps now := began.keeps_after actions
  have bounds : ∀ dimension,
      now.analysis.upperBound? dimension = began.analysis.upperBound? dimension := by
    intro dimension
    rw [Analysis.upperBound?, keeps.usable, Analysis.upperBound?]
  have facts : now.analysis.boundFacts = began.analysis.boundFacts := by
    simp only [Analysis.boundFacts, funext keeps.usable]
  refine ⟨⟨keeps.status, keeps.earlyExit, bounds, facts⟩, ?_, ?_, now.removals_commute⟩
  · intro dimension
    rw [bounds, keeps.status, keeps.survey]
    exact start_bound_iff dimension
  · intro remover
    refine ⟨changed_iff_code_ne, func_of_unchanged, unchanged_ever_after, ?_, ?_⟩
    · intro unusable
      exact removal_of_idle (by simp [Analysis.isDue, unusable])
    · intro others same available
      obtain ⟨fact, usable⟩ := Option.isSome_iff_exists.mp available
      have unspent : now.analysis.removed.get remover.dimension = false := by
        rw [removed_after_others, start_removed]
        intro other member
        have different := others other member
        cases other <;> cases remover <;> simp_all [Remover.dimension]
      rw [removal_of_due usable unspent, same]
      exact start_defines (keeps.usable _ ▸ usable)

/-- The first bound of the kernel is removed at the first call, and never again. -/
theorem plane_bound_removed_once :
    let began := start Condition.planeKernel (Region.whole Condition.planeKernel)
      (Condition.planeKernel.domTree .backward).dominates .standard
    (began.removal .x).changed = true ∧
      (began.removal .x).func.code ≠ Condition.planeKernel.code ∧
      ∀ later, (((began.next (.remove .x)).after later).removal .x).changed = false := by
  intro began
  have available : (began.analysis.usable? .x).isSome = true := by
    rw [show began.analysis = _ from Analysis.ofRegion_located Condition.planeGuard_located]
    cbv
  obtain ⟨-, -, removals, -⟩ := report_outlives_removals Condition.planeKernel
    (Region.whole Condition.planeKernel) (Condition.planeKernel.domTree .backward).dominates
    .standard []
  obtain ⟨shrinks, -, once, -, first⟩ := removals .x
  have changed : (began.removal .x).changed = true := first (by simp) rfl available
  exact ⟨changed, shrinks.mp changed, once changed⟩

end Session

end KernelGuard
