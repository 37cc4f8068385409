/-! The three dimensions of a work-group and data kept for each of them. -/
namespace KernelGuard

inductive Dimension where
  | x | y | z
deriving DecidableEq, Repr

namespace Dimension

def all : List Dimension := [x, y, z]

def text : Dimension → String
  | x => "x"
  | y => "y"
  | z => "z"

/-- The dimensions up to and including one. -/
def upTo : Dimension → List Dimension
  | x => [x]
  | y => [x, y]
  | z => [x, y, z]

end Dimension

/-- One value for each dimension. -/
structure PerDimension (α : Type) where
  x : α
  y : α
  z : α
deriving DecidableEq, Repr

namespace PerDimension

variable {α : Type}

/-- The same value for every dimension. -/
def replicate (value : α) : PerDimension α := ⟨value, value, value⟩

def get (values : PerDimension α) : Dimension → α
  | .x => values.x
  | .y => values.y
  | .z => values.z

def set (values : PerDimension α) (dimension : Dimension) (value : α) : PerDimension α :=
  match dimension with
  | .x => { values with x := value }
  | .y => { values with y := value }
  | .z => { values with z := value }

end PerDimension

/-- The spelling of the variable that holds a work-item's local index, for each
dimension. -/
abbrev IndexSymbols := PerDimension String

namespace IndexSymbols

/-- The symbols that the front end emits. -/
def standard : IndexSymbols := ⟨"_local_id_x", "_local_id_y", "_local_id_z"⟩

/-- The first dimension with a symbol. -/
def dimensionOf? (symbols : IndexSymbols) (spelling : String) : Option Dimension :=
  Dimension.all.find? fun dimension => symbols.get dimension = spelling

end IndexSymbols

end KernelGuard
