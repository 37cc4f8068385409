import KernelGuard.Flow.Block

/-! The edges that terminators ask for. A target that is named twice is linked
once, and the first label without a block ends the linking. -/
namespace KernelGuard

/-- A way from one block to another, by their places. -/
structure Edge where
  source : Nat
  target : Nat
deriving DecidableEq, Repr

namespace Edge

/-- The place of the first block with a label. -/
def placeOf? (blocks : List Block) (label : Label) : Option Nat :=
  blocks.findIdx? (·.label = label)

/-- Every target of every terminator with the place of its block, in block and
operand order. -/
def requests (blocks : List Block) : List (Nat × Label) :=
  blocks.zipIdx.flatMap fun (block, place) => block.targets.map (place, ·)

/-- The edges for the requests in front of the first one whose label no block
has, and that label. -/
def resolve (blocks : List Block) : List (Nat × Label) → List Edge × Option Label
  | [] => ([], none)
  | (source, label) :: rest =>
    match placeOf? blocks label with
    | none => ([], some label)
    | some target =>
      let (edges, missing) := resolve blocks rest
      (⟨source, target⟩ :: edges, missing)

/-- Replaces whatever edges the blocks had by the given ones, each taken once. -/
def install (edges : List Edge) (blocks : List Block) : List Block :=
  let distinct := edges.eraseDups
  blocks.mapIdx fun place block =>
    { block with
      succ := (distinct.filter (·.source = place)).map (·.target)
      prev := (distinct.filter (·.target = place)).map (·.source) }

/-- Rebuilds all edges from the terminators. If a label has no block, the edges
asked for before it are kept and the label is reported. -/
def rebuild (blocks : List Block) : List Block × Option Label :=
  let (edges, missing) := resolve blocks (requests blocks)
  (install edges blocks, missing)

end Edge

end KernelGuard
