import KernelGuard.Flow.Func

/-! The blocks that every work-item of a work-group executes. -/
namespace KernelGuard

/-- Places of blocks in a chosen order; a place may come more than once. -/
abbrev Region := List Nat

namespace Region

/-- All blocks of a function, in block order. -/
def whole (func : Func) : Region := List.range func.blocks.length

/-- The blocks with the given labels, in the given order. -/
def ofLabels (func : Func) (labels : List Label) : Except Fault Region :=
  labels.mapM fun label =>
    match func.place? label with
    | some place => .ok place
    | none => .error (.undefinedLabel label)

end Region

end KernelGuard
