import KernelGuard.Flow.Graph

/-! Dominance as a tree. Places are taken in order as candidate parents of the
places they dominate; a candidate replaces an earlier one that dominates it. -/
namespace KernelGuard

/-- A parent and one of its children. -/
structure TreeEdge where
  parent : Nat
  child : Nat
deriving DecidableEq, Repr

/-- For each place the places it dominates, and the tree as edges in the order
in which children found their parents. -/
structure DomTree where
  dominated : List (List Nat)
  edges : List TreeEdge
deriving DecidableEq, Repr

namespace DomTree

/-- The parent of a place among some tree edges. -/
def parentIn (edges : List TreeEdge) (child : Nat) : Option Nat :=
  (edges.find? (·.child = child)).map (·.parent)

/-- Offers a parent to a place. It is taken if there is none yet, or if the
present one dominates the new one. -/
def adopt (dominates : Nat → Nat → Bool) (parent : Nat) (edges : List TreeEdge) (child : Nat) :
    List TreeEdge :=
  match parentIn edges child with
  | none => edges ++ [⟨parent, child⟩]
  | some present =>
    if dominates present parent then
      edges.filter (· ≠ ⟨present, child⟩) ++ [⟨parent, child⟩]
    else edges

/-- Offers a place as parent to everything else it dominates. -/
def adoptAll (dominates : Nat → Nat → Bool) (edges : List TreeEdge) (parent : Nat)
    (dominated : List Nat) : List TreeEdge :=
  (dominated.filter (· ≠ parent)).foldl (adopt dominates parent) edges

/-- Whether the first place dominates the second. -/
def dominates (tree : DomTree) (a b : Nat) : Bool := (tree.dominated.getD a []).contains b

/-- The tree of a flow graph. -/
def ofGraph (graph : FlowGraph) : DomTree :=
  let dominated := (List.range graph.size).map graph.dominatedBy
  let dominates := fun a b => (dominated.getD a []).contains b
  { dominated
    edges := dominated.zipIdx.foldl
      (fun edges (children, parent) => adoptAll dominates edges parent children) [] }

/-- The immediate dominator. -/
def parent? (tree : DomTree) (place : Nat) : Option Nat := parentIn tree.edges place

/-- The places immediately dominated, in the order in which they were adopted. -/
def children (tree : DomTree) (place : Nat) : List Nat :=
  (tree.edges.filter (·.parent = place)).map (·.child)

end DomTree

end KernelGuard
