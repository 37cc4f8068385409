import KernelGuard.Flow.Func
import KernelGuard.Guard.Dimension

/-! Taking a branch condition apart. A condition is understood when it is a
conjunction of comparisons of a work-item's index with a parameter. -/
namespace KernelGuard

/-- The comparison `index < bound` in one dimension, with the instruction as it
is written. -/
structure BoundFact where
  dimension : Dimension
  compare : Temp
  bound : Value
  text : String
deriving DecidableEq

/-- Why a condition is not understood. Instructions are given as written. -/
inductive Obstacle where
  | tooManyNodes
  | constant (value : Value)
  | undefined (temp : Temp)
  | noComparison (temp : Temp)
  | foreign (instr : String)
  | predicate (compare : String)
  | bound (compare : String)
  | index (compare : String)
  | noLocalIndex (compare : String)
deriving DecidableEq

/-- What one node of a condition says. -/
inductive Finding where
  | obstacle (cause : Obstacle)
  | repeated (temp : Temp)
  | fact (fact : BoundFact)
deriving DecidableEq

/-- A node of a condition as it is met on a walk. -/
inductive Visit where
  | exhausted
  | constant (value : Value)
  | repeated (temp : Temp)
  | conjunction (temp : Temp)
  | leaf (temp : Temp) (definition : Option Instr)
deriving DecidableEq

namespace Condition

/-- The greatest number of nodes that are looked at. -/
def nodeLimit : Nat := 64

end Condition

def Obstacle.message : Obstacle → String
  | tooManyNodes => "condition has more than " ++ toString Condition.nodeLimit ++ " nodes"
  | constant value => "constant " ++ value.text ++ " in condition"
  | undefined temp => temp.text ++ " has no definition"
  | noComparison temp => temp.text ++ " is not a comparison"
  | foreign instr => "'" ++ instr ++ "' in condition"
  | predicate compare => "unsupported predicate in '" ++ compare ++ "'"
  | bound compare => "bound of '" ++ compare ++ "' is not a parameter"
  | index compare => "index of '" ++ compare ++ "' is not an add"
  | noLocalIndex compare => "index of '" ++ compare ++ "' loads no local id"

namespace Condition

/-- Walks the conjunctions that feed a condition, the left operand first. Every
node taken from the pending ones counts, also one that was met before; a
temporary is opened once. -/
def walk (definition? : Name → Option Instr) : Nat → List Value → List Name → List Visit
  | _, [], _ => []
  | 0, _ :: _, _ => [.exhausted]
  | budget + 1, .temp t :: pending, visited =>
    if t.name ∈ visited then .repeated t :: walk definition? budget pending visited
    else
      match definition? t.name with
      | some (.arith _ .and _ lhs rhs) =>
        .conjunction t :: walk definition? budget (lhs :: rhs :: pending) (t.name :: visited)
      | definition => .leaf t definition :: walk definition? budget pending (t.name :: visited)
  | budget + 1, value :: pending, visited =>
    .constant value :: walk definition? budget pending visited

/-- The first definition of the temporary that a value reads. -/
def definitionOf? (func : Func) (value : Value) : Option Instr :=
  value.name?.bind func.definition?

/-- The two operands of the addition that defines an index, seen through at most
one truncation. -/
def addends? (func : Func) (index : Value) : Option (Value × Value) :=
  let origin := match definitionOf? func index with
    | some (.convert _ .trunc _ operand _) => definitionOf? func operand
    | definition => definition
  match origin with
  | some (.arith _ .add _ lhs rhs) => some (lhs, rhs)
  | _ => none

/-- The dimension whose index a value is loaded from. -/
def loadedDimension? (func : Func) (symbols : IndexSymbols) (value : Value) : Option Dimension :=
  match definitionOf? func value with
  | some (.load _ _ address) =>
    address.name?.bind fun name => symbols.dimensionOf? name.spelling
  | _ => none

/-- Whether an operand is a parameter of the function. -/
def isParameter (func : Func) (value : Value) : Bool :=
  match value.name? with
  | some name => func.isParam name
  | none => false

/-- What a comparison says: that an index is less than a parameter, for each
dimension that the index is made from. -/
def ofCompare (func : Func) (symbols : IndexSymbols) (compare : Temp) (kind : CompareKind)
    (predicate : Predicate) (lhs rhs : Value) (text : String) : List Finding :=
  if ¬(kind = .icmp ∧ (predicate = .ult ∨ predicate = .slt)) then [.obstacle (.predicate text)]
  else if ¬isParameter func rhs then [.obstacle (.bound text)]
  else
    match addends? func lhs with
    | none => [.obstacle (.index text)]
    | some (a, b) =>
      match [a, b].filterMap (loadedDimension? func symbols) with
      | [] => [.obstacle (.noLocalIndex text)]
      | dimensions => dimensions.map fun dimension => .fact ⟨dimension, compare, rhs, text⟩

/-- What a visited node says. -/
def findings (func : Func) (symbols : IndexSymbols) : Visit → List Finding
  | .exhausted => [.obstacle .tooManyNodes]
  | .constant value => [.obstacle (.constant value)]
  | .repeated temp => [.repeated temp]
  | .conjunction _ => []
  | .leaf temp none => [.obstacle (.undefined temp)]
  | .leaf temp (some definition) =>
    match definition with
    | .compare _ kind predicate _ lhs rhs =>
      ofCompare func symbols temp kind predicate lhs rhs definition.text
    | .arith _ .add .. | .convert _ .trunc .. | .load .. => [.obstacle (.noComparison temp)]
    | _ => [.obstacle (.foreign definition.text)]

/-- Everything that a condition says, in the order in which it is met. -/
def decompose (func : Func) (symbols : IndexSymbols) (condition : Value) : List Finding :=
  (walk func.definition? nodeLimit [condition] []).flatMap (findings func symbols)

end Condition

end KernelGuard
