import KernelGuard.Proofs.DominatorForest
import Mathlib.Logic.Function.Basic

/-! Children and parents of a dominator tree. A loop over the places keeps them in two maps:
a place that takes an offer joins the children of its new parent and leaves those of the old
one. Since a parent is offered to a place only once, the two maps stay the two readings of one
list of edges, whatever the edges between the blocks are. -/
namespace KernelGuard

namespace FlowGraph

/-- A walk meets every place once at most. -/
private theorem unreached_sublist (graph : FlowGraph) (avoided : Nat) (unseen frontier : List Nat) :
    (graph.unreached avoided unseen frontier).Sublist unseen := by
  fun_induction unreached graph avoided unseen frontier with
  | case1 unseen => exact .refl _
  | case2 unseen place frontier inside ih =>
    -- the recursion carries its successors together with their membership
    rw [List.unattach_filter (g := fun next => decide (next ≠ avoided)),
      List.unattach_attach] at ih
    · exact ih.trans List.erase_sublist
    · exact fun _ _ => rfl
  | case3 unseen place frontier outside ih => exact ih

theorem nodup_dominated (graph : FlowGraph) (place : Nat) : (graph.dominatedBy place).Nodup :=
  List.nodup_range.sublist (graph.unreached_sublist place _ _)

end FlowGraph

namespace DomTree

/-- The maps that a loop fills: the children of a place in the order in which it took them, and
the parent of a place. -/
structure Maps where
  children : Nat → List Nat
  parent : Nat → Option Nat

namespace Maps

/-- Nothing has been offered yet. -/
def empty : Maps := ⟨fun _ => [], fun _ => none⟩

/-- Offers a parent to a place. The place is added to the children of a parent that it takes
before it is dropped from those of the parent that it had. -/
def offer (dominates : Nat → Nat → Bool) (parent : Nat) (maps : Maps) (child : Nat) : Maps :=
  let joined := Function.update maps.children parent (maps.children parent ++ [child])
  let taken := Function.update maps.parent child (some parent)
  match maps.parent child with
  | none => ⟨joined, taken⟩
  | some present =>
    if dominates present parent then
      ⟨Function.update joined present ((joined present).filter (· ≠ child)), taken⟩
    else maps

/-- Offers a place as parent to everything else it dominates. -/
def offerAll (dominates : Nat → Nat → Bool) (maps : Maps) (parent : Nat) (dominated : List Nat) :
    Maps :=
  (dominated.filter (· ≠ parent)).foldl (offer dominates parent) maps

/-- Every place of a graph is offered as parent, in order. -/
def ofGraph (graph : FlowGraph) : Maps :=
  (List.range graph.size).foldl (fun maps parent =>
    offerAll (DomTree.ofGraph graph).dominates maps parent (graph.dominatedBy parent)) empty

end Maps

/-- The children of a place among some tree edges. -/
def childrenIn (edges : List TreeEdge) (parent : Nat) : List Nat :=
  (edges.filter (·.parent = parent)).map (·.child)

/-- What some tree edges say about children and parents. -/
def Maps.ofEdges (edges : List TreeEdge) : Maps := ⟨childrenIn edges, parentIn edges⟩

variable {dominates : Nat → Nat → Bool} {edges : List TreeEdge} {parent child other : Nat}

/-! ## One list of edges -/

/-- A new edge adds a child to its parent, behind the others. -/
private theorem children_added (edges : List TreeEdge) (parent child : Nat) :
    childrenIn (edges ++ [⟨parent, child⟩]) =
      Function.update (childrenIn edges) parent (childrenIn edges parent ++ [child]) := by
  funext other
  by_cases same : other = parent
  · subst same
    simp [childrenIn]
  · simp [childrenIn, same, Ne.symm same]

/-- An edge that is taken away takes the child from its parent and from no other place. -/
private theorem children_dropped (edges : List TreeEdge) (parent child : Nat) :
    childrenIn (edges.filter (· ≠ ⟨parent, child⟩)) =
      Function.update (childrenIn edges) parent ((childrenIn edges parent).filter (· ≠ child)) := by
  funext other
  by_cases same : other = parent
  · subst same
    rw [Function.update_self, childrenIn, childrenIn, List.filter_map, List.filter_filter,
      List.filter_filter]
    congr 1
    refine List.filter_congr fun ⟨source, target⟩ _ => ?_
    by_cases here : source = other <;> simp [here]
  · rw [Function.update_of_ne same, childrenIn, childrenIn, List.filter_filter]
    congr 1
    refine List.filter_congr fun ⟨source, target⟩ _ => ?_
    by_cases here : source = other <;> simp [here, same]

/-- An offer changes the two maps as it changes the edges, unless it is made again. -/
theorem offer_ofEdges (tree : IsTree edges) (new : parentIn edges child ≠ some parent) :
    Maps.offer dominates parent (.ofEdges edges) child =
      .ofEdges (adopt dominates parent edges child) := by
  have parents : parentIn (adopt dominates parent edges child) =
      Function.update (parentIn edges) child (chosen dominates (parentIn edges child) parent) :=
    funext fun other => (parentIn_adopt tree).trans (Function.update_apply ..).symm
  unfold Maps.ofEdges Maps.offer
  rw [parents, adopt]
  cases found : parentIn edges child with
  | none => simp only [found, children_added, chosen]
  | some present =>
    have apart : present ≠ parent := fun same => new (same ▸ found)
    by_cases closer : dominates present parent = true
    · simp only [found, closer, if_true, chosen, children_added, children_dropped]
      rw [Function.update_of_ne apart, Function.update_of_ne apart.symm,
        Function.update_comm apart]
    · simp only [found, closer, chosen, Bool.false_eq_true, if_false]
      rw [← found, Function.update_eq_self]

/-- A place is offered to others, each once, that do not have it as their parent. -/
private theorem offered_ofEdges (children : List Nat) (once : children.Nodup)
    (tree : IsTree edges) (new : ∀ child ∈ children, parentIn edges child ≠ some parent) :
    children.foldl (Maps.offer dominates parent) (.ofEdges edges) =
      .ofEdges (children.foldl (adopt dominates parent) edges) := by
  induction children generalizing edges with
  | nil => rfl
  | cons child rest ih =>
    obtain ⟨first, once⟩ := List.nodup_cons.mp once
    obtain ⟨here, new⟩ := List.forall_mem_cons.mp new
    rw [List.foldl_cons, List.foldl_cons, offer_ofEdges tree here]
    refine ih once (tree_adopt tree) fun other member => ?_
    rw [parentIn_adopt tree, if_neg (ne_of_mem_of_not_mem member first)]
    exact new other member

/-- Places are offered one after the other, each once, that are no parents yet. -/
private theorem visited_ofEdges (graph : FlowGraph) (parents : List Nat) (once : parents.Nodup)
    (tree : IsTree edges) (new : ∀ parent ∈ parents, ∀ child, parentIn edges child ≠ some parent) :
    parents.foldl (fun maps parent => Maps.offerAll dominates maps parent (graph.dominatedBy parent))
        (.ofEdges edges) =
      .ofEdges (parents.foldl
        (fun edges parent => adoptAll dominates edges parent (graph.dominatedBy parent)) edges) := by
  induction parents generalizing edges with
  | nil => rfl
  | cons parent rest ih =>
    obtain ⟨first, once⟩ := List.nodup_cons.mp once
    obtain ⟨here, new⟩ := List.forall_mem_cons.mp new
    have dominated : ((graph.dominatedBy parent).filter (· ≠ parent)).Nodup :=
      (FlowGraph.nodup_dominated graph parent).filter _
    have chose := fun child =>
      parentIn_adoptAll dominates parent child (graph.dominatedBy parent) tree
    have visited : Maps.offerAll dominates (.ofEdges edges) parent (graph.dominatedBy parent) =
        .ofEdges (adoptAll dominates edges parent (graph.dominatedBy parent)) :=
      offered_ofEdges _ dominated tree fun child _ => here child
    rw [List.foldl_cons, List.foldl_cons, visited]
    refine ih once (chose parent).1 fun other member child => ?_
    rw [(chose child).2]
    split
    · intro taken
      rcases chosen_cases taken with rfl | kept
      · exact first member
      · exact new other member child kept
    · exact new other member child

/-- The maps that the loop fills are the two readings of the edges of the tree. -/
theorem maps_ofGraph (graph : FlowGraph) :
    Maps.ofGraph graph = .ofEdges (ofGraph graph).edges := by
  rw [edges_ofGraph]
  exact visited_ofEdges graph _ List.nodup_range tree_nil fun _ _ _ => nofun

/-! ## One parent for each child -/

/-- No two places have a child in common. -/
theorem children_nodup (graph : FlowGraph) {parents : List Nat} (once : parents.Nodup) :
    (parents.flatMap (ofGraph graph).children).Nodup := by
  refine List.nodup_flatMap.mpr ⟨fun parent _ => ?_, once.imp fun different => ?_⟩
  · exact (tree_ofGraph graph).sublist (List.filter_sublist.map _)
  · intro child here there
    have one := FlowGraph.mem_children_iff.mp here
    have other := FlowGraph.mem_children_iff.mp there
    exact different (Option.some.inj (one.symm.trans other))

/-- A parent is another place that dominates its child. -/
theorem parent_is_above {graph : FlowGraph} (up : (ofGraph graph).parent? child = some parent) :
    parent ≠ child ∧ (ofGraph graph).dominates parent child = true := by
  rw [parent?_ofGraph] at up
  obtain ⟨listed, taken⟩ := List.mem_filter.mp (chosen_mem up)
  obtain ⟨dominated, different⟩ := of_decide_eq_true taken
  exact ⟨different.symm, (dominates_ofGraph (List.mem_range.mp listed)).mpr dominated⟩

/-- Only places of a graph dominate anything. -/
private theorem inside_of_dominates {graph : FlowGraph}
    (dominates : (ofGraph graph).dominates parent child = true) : parent < graph.size := by
  by_contra outside
  simp [DomTree.dominates, ofGraph, outside] at dominates

/-- A place has no parent just if no other place dominates it. -/
theorem parent_none_iff (graph : FlowGraph) (child : Nat) :
    (ofGraph graph).parent? child = none ↔
      ∀ other, other ≠ child → (ofGraph graph).dominates other child = false := by
  rw [parent?_ofGraph, chosen_eq_none_iff, above, List.filter_eq_nil_iff]
  simp only [List.mem_range, decide_eq_true_eq, not_and, not_not]
  constructor
  · intro alone other different
    by_contra dominates
    rw [Bool.not_eq_false] at dominates
    have inside := inside_of_dominates dominates
    exact different (alone other inside ((dominates_ofGraph inside).mp dominates)).symm
  · intro alone other inside dominated
    by_contra different
    rw [← dominates_ofGraph inside, alone other (Ne.symm different)] at dominated
    cases dominated

/-- Whatever edges the blocks have, the loop leaves two maps that are inverse: they are those
of the tree, and a place is among the children of exactly its parent. No place is twice among
all children, none is its own parent, every parent dominates its child, and a place is left
without a parent just if no other place dominates it. -/
theorem children_inverse_to_parents (blocks : List Block) (direction : Direction) :
    let graph := FlowGraph.along direction blocks
    let tree := ofGraph graph
    ((Maps.ofGraph graph).children = tree.children ∧ (Maps.ofGraph graph).parent = tree.parent?) ∧
    (∀ parent child, child ∈ tree.children parent ↔ tree.parent? child = some parent) ∧
    ((List.range blocks.length).flatMap tree.children).Nodup ∧
    (∀ place, tree.parent? place ≠ some place) ∧
    (∀ parent child, tree.parent? child = some parent → tree.dominates parent child = true) ∧
    ∀ child, tree.parent? child = none ↔
      ∀ other, other ≠ child → tree.dominates other child = false := by
  intro graph tree
  have maps : Maps.ofGraph graph = .ofEdges tree.edges := maps_ofGraph graph
  refine ⟨⟨?children, ?parent⟩, ?inverse, ?once, ?other, ?above, ?none⟩
  case children => exact congrArg Maps.children maps
  case parent => exact congrArg Maps.parent maps
  case inverse => exact fun parent child => FlowGraph.mem_children_iff
  case once => exact children_nodup graph List.nodup_range
  case other => exact fun place up => (parent_is_above up).1 rfl
  case above => exact fun parent child up => (parent_is_above up).2
  case none => exact parent_none_iff graph

/-- Edges that are not known at both ends: the first block leads to the second one, and this to
the third. The third block is handed on from the first one, which dominates the second. -/
example :
    let block (succ : List Nat) : Block := ⟨"", [], [], none, [2], succ⟩
    let maps := Maps.ofGraph (.along .forward [block [1], block [2, 7], block []])
    maps.children 0 = [1] ∧ maps.children 1 = [2] ∧ maps.parent 2 = some 1 := by
  cbv

end DomTree

end KernelGuard
