import KernelGuard.Flow.Substitution
import KernelGuard.Guard.Condition
import KernelGuard.Guard.EarlyExit

/-! The early-exit bound analysis. It is made once for a region and then answers
which dimension is bounded by which parameter; a bound may be folded away once. -/
namespace KernelGuard

/-- What is known from a condition: whether nothing stood in the way, and the
first fact for each dimension. -/
structure Survey where
  understood : Bool
  facts : PerDimension (Option BoundFact)
deriving DecidableEq

namespace Survey

/-- Nothing is known and nothing stands in the way. -/
def empty : Survey := ⟨true, .replicate none⟩

/-- Takes one finding in. An earlier fact of the same dimension is kept. -/
def extend (survey : Survey) : Finding → Logged Survey
  | .obstacle cause => do
    Logged.note .trace .condition ("unsupported guard: " ++ cause.message)
    return { survey with understood := false }
  | .repeated temp => do
    Logged.note .trace .condition (temp.text ++ " already classified")
    return survey
  | .fact fact => do
    if (survey.facts.get fact.dimension).isSome then
      Logged.note .trace .condition ("keeping earlier " ++ fact.dimension.text ++
        " upper bound, ignoring '" ++ fact.text ++ "'")
      return survey
    else
      Logged.note .debug .condition ("kernel using " ++ fact.dimension.text ++
        " upper bound: " ++ fact.text)
      return { survey with facts := survey.facts.set fact.dimension (some fact) }

/-- Takes all findings in, in order. -/
def ofFindings (findings : List Finding) : Logged Survey :=
  findings.foldlM extend empty

end Survey

inductive GuardStatus where
  | noEarlyExit
  | notUnderstood
  | understood
deriving DecidableEq, Repr

def GuardStatus.text : GuardStatus → String
  | noEarlyExit => "no early exit"
  | notUnderstood => "not understood"
  | understood => "understood"

/-- An analysis of a region, and which of its facts have been folded away. -/
structure Analysis where
  earlyExit : Option EarlyExit
  survey : Survey
  removed : PerDimension Bool
deriving DecidableEq

/-- What a removal leaves behind, and whether it changed an instruction. -/
structure Removal where
  analysis : Analysis
  func : Func
  changed : Bool

namespace Analysis

/-- Analyses a region. Post-dominance matters only for finding the guard. -/
def ofRegion (func : Func) (region : Region) (postDominates : Nat → Nat → Bool)
    (symbols : IndexSymbols) : Logged Analysis := do
  let earlyExit ← EarlyExit.locate func region postDominates
  match earlyExit with
  | none =>
    Logged.note .info .guard "no early exit found"
    return ⟨none, .empty, .replicate false⟩
  | some exit =>
    let survey ← Survey.ofFindings (Condition.decompose func symbols exit.condition)
    if survey.understood then
      return ⟨some exit, survey, .replicate false⟩
    else
      Logged.note .warn .guard "early exit branch transformation not safe or not understood"
      return ⟨some exit, survey, .replicate false⟩

def status (analysis : Analysis) : GuardStatus :=
  match analysis.earlyExit with
  | none => .noEarlyExit
  | some _ => if analysis.survey.understood then .understood else .notUnderstood

/-- The fact of a dimension, if the condition is understood and every lower
dimension is bounded as well. -/
def usable? (analysis : Analysis) (dimension : Dimension) : Option BoundFact :=
  if analysis.survey.understood ∧
      dimension.upTo.all (fun lower => (analysis.survey.facts.get lower).isSome) then
    analysis.survey.facts.get dimension
  else none

/-- The value that bounds a dimension. -/
def upperBound? (analysis : Analysis) (dimension : Dimension) : Option Value :=
  (analysis.usable? dimension).map (·.bound)

/-- The usable facts, in the order of dimensions. -/
def boundFacts (analysis : Analysis) : List BoundFact :=
  Dimension.all.filterMap analysis.usable?

/-- Folds the comparison of a dimension to true. A dimension without a usable
fact, or whose turn has been, leaves everything as it is. -/
def removeUpperBound (analysis : Analysis) (dimension : Dimension) (func : Func) :
    Logged Removal :=
  match analysis.usable? dimension with
  | none => return ⟨analysis, func, false⟩
  | some fact =>
    if analysis.removed.get dimension then return ⟨analysis, func, false⟩
    else do
      Logged.note .info .guard ("replacing " ++ dimension.text ++
        " upper bound comparison instruction with constant")
      let spent := { analysis with removed := analysis.removed.set dimension true }
      match func.replaceDefinition? fact.compare.name (.bool true) with
      | some changed => return ⟨spent, changed, true⟩
      | none => return ⟨spent, func, false⟩

/-- Folds the comparison that bounds the first dimension. -/
def removeXUpperBound (analysis : Analysis) (func : Func) : Logged Removal :=
  analysis.removeUpperBound .x func

/-- Folds the comparison that bounds the second dimension, which needs a bound
of the first one as well. -/
def removeYUpperBound (analysis : Analysis) (func : Func) : Logged Removal :=
  analysis.removeUpperBound .y func

end Analysis

end KernelGuard
