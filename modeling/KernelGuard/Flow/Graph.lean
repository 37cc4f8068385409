import KernelGuard.Flow.Block

/-! A flow graph seen from its roots, and which places are out of reach once one
place is taken away. Walking forward the root is the entry; walking backward
every block without successors is a root. -/
namespace KernelGuard

/-- The places `0 … size - 1`, where a walk may start, and where it may go next. -/
structure FlowGraph where
  size : Nat
  roots : List Nat
  next : Nat → List Nat

/-- Which way edges are walked. -/
inductive Direction where
  | forward
  | backward
deriving DecidableEq, Repr

namespace FlowGraph

/-- The blocks of a function from the entry along successors. -/
def forward (blocks : List Block) : FlowGraph where
  size := blocks.length
  roots := if blocks.isEmpty then [] else [0]
  next place := (blocks[place]?.map (·.succ)).getD []

/-- The places of the blocks without successors, in block order. -/
def exits (blocks : List Block) : List Nat :=
  (List.range blocks.length).filter fun place =>
    ((blocks[place]?.map (·.succ)).getD []).isEmpty

/-- The blocks of a function from its exits along predecessors. -/
def backward (blocks : List Block) : FlowGraph where
  size := blocks.length
  roots := exits blocks
  next place := (blocks[place]?.map (·.prev)).getD []

/-- The blocks of a function, walked one way. -/
def along (direction : Direction) (blocks : List Block) : FlowGraph :=
  match direction with
  | .forward => forward blocks
  | .backward => backward blocks

/-- The places that stay unseen when a walk that never enters one place has gone
everywhere it can from a frontier. Each step takes a place off the unseen ones
or shortens the frontier. -/
def unreached (graph : FlowGraph) (avoided : Nat) (unseen : List Nat) : List Nat → List Nat
  | [] => unseen
  | place :: frontier =>
    if place ∈ unseen then
      unreached graph avoided (unseen.erase place)
        (frontier ++ (graph.next place).filter (· ≠ avoided))
    else unreached graph avoided unseen frontier
termination_by frontier => (unseen.length, frontier.length)
decreasing_by
  · apply Prod.Lex.left
    have positive : 0 < unseen.length := List.length_pos_of_mem ‹_›
    rw [List.length_erase_of_mem ‹_›]
    omega
  · apply Prod.Lex.right
    simp

/-- The places that no walk from a root reaches without entering a given one, in
ascending order. -/
def dominatedBy (graph : FlowGraph) (place : Nat) : List Nat :=
  graph.unreached place (List.range graph.size) (graph.roots.filter (· ≠ place))

end FlowGraph

end KernelGuard
