import KernelGuard.Guard.Analysis

/-! What an analysis holds once it is made. A survey is understood when no finding
stands in the way, and it keeps the first fact found for each dimension. -/
namespace KernelGuard

namespace PerDimension

variable {α : Type}

theorem get_set (values : PerDimension α) (written read : Dimension) (value : α) :
    (values.set written value).get read = if written = read then value else values.get read := by
  cases written <;> cases read <;> rfl

@[simp] theorem get_replicate (value : α) (dimension : Dimension) :
    (replicate value).get dimension = value := by
  cases dimension <;> rfl

end PerDimension

namespace Finding

/-- Whether a finding stands in the way of understanding a condition. -/
def isObstacle : Finding → Bool
  | obstacle _ => true
  | _ => false

/-- The fact that a finding states about a dimension. -/
def factFor? (dimension : Dimension) : Finding → Option BoundFact
  | fact found => if found.dimension = dimension then some found else none
  | _ => none

end Finding

namespace Survey

private theorem extend_understood (survey : Survey) (finding : Finding) :
    (survey.extend finding).value.understood = (survey.understood && !finding.isObstacle) := by
  cases finding with
  | obstacle cause => simp [extend, Finding.isObstacle]
  | repeated temp => simp [extend, Finding.isObstacle]
  | fact found =>
    by_cases known : (survey.facts.get found.dimension).isSome <;>
      simp [extend, Finding.isObstacle, known]

private theorem extend_facts (survey : Survey) (finding : Finding) (dimension : Dimension) :
    (survey.extend finding).value.facts.get dimension =
      (survey.facts.get dimension).or (finding.factFor? dimension) := by
  cases finding with
  | obstacle cause => simp [extend, Finding.factFor?]
  | repeated temp => simp [extend, Finding.factFor?]
  | fact found =>
    by_cases same : found.dimension = dimension
    · subst same
      cases known : survey.facts.get found.dimension <;>
        simp [extend, Finding.factFor?, known, PerDimension.get_set]
    · by_cases known : (survey.facts.get found.dimension).isSome <;>
        simp [extend, Finding.factFor?, known, same, PerDimension.get_set]

/-- A survey is understood exactly when it met no obstacle. -/
theorem ofFindings_understood (findings : List Finding) :
    (ofFindings findings).value.understood = findings.all (!·.isObstacle) := by
  have general : ∀ survey : Survey,
      (findings.foldl (fun survey finding => (survey.extend finding).value) survey).understood =
        (survey.understood && findings.all (!·.isObstacle)) := by
    induction findings with
    | nil => simp
    | cons finding rest ih =>
      intro survey
      simp only [List.foldl_cons, ih, extend_understood, List.all_cons, Bool.and_assoc]
  rw [ofFindings, Logged.value_foldlM, general]
  simp [empty]

/-- The fact kept for a dimension is the first one found. -/
theorem ofFindings_facts (findings : List Finding) (dimension : Dimension) :
    (ofFindings findings).value.facts.get dimension =
      findings.findSome? (Finding.factFor? dimension) := by
  have general : ∀ survey : Survey,
      (findings.foldl (fun survey finding => (survey.extend finding).value) survey).facts.get
          dimension =
        (survey.facts.get dimension).or (findings.findSome? (Finding.factFor? dimension)) := by
    induction findings with
    | nil => simp
    | cons finding rest ih =>
      intro survey
      rw [List.foldl_cons, ih, extend_facts, Option.or_assoc, List.findSome?_cons]
      cases finding.factFor? dimension <;> rfl
  rw [ofFindings, Logged.value_foldlM, general]
  simp [empty]

end Survey

namespace Analysis

variable {func : Func} {region : Region} {postDominates : Nat → Nat → Bool}
  {symbols : IndexSymbols}

/-- What is usable is kept. -/
theorem kept_of_usable {analysis : Analysis} (usable : analysis.usable? dimension = some fact) :
    analysis.survey.facts.get dimension = some fact := by
  unfold usable? at usable
  split at usable
  · exact usable
  · cases usable

/-- With a guard in place, the survey is the one of its condition. -/
theorem ofRegion_located
    (located : (EarlyExit.locate func region postDominates).value = some exit) :
    (ofRegion func region postDominates symbols).value =
      ⟨some exit,
        (Survey.ofFindings (Condition.decompose func symbols exit.condition)).value,
        .replicate false⟩ := by
  simp only [ofRegion, Logged.value_bind, located]
  split <;> rfl

/-- Without a guard nothing is known. -/
theorem ofRegion_unlocated
    (missing : (EarlyExit.locate func region postDominates).value = none) :
    (ofRegion func region postDominates symbols).value =
      ⟨none, .empty, .replicate false⟩ := by
  simp only [ofRegion, Logged.value_bind, missing, Logged.value_pure]

end Analysis

end KernelGuard
