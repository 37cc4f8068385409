import KernelGuard.Flow.DomTree
import Mathlib.Data.List.Induction
import Mathlib.Data.List.Nodup

/-! How a place comes to its parent in a dominator tree. Whatever the places are that it is
offered, it keeps one edge to one parent, and the parent changes exactly when the present one
dominates the offer. So the parent is what a plain choice leaves of the places that dominate
the child, taken in order. -/
namespace KernelGuard.DomTree

variable {dominates : Nat → Nat → Bool} {edges : List TreeEdge} {edge : TreeEdge}
  {parent child other : Nat}

/-- No place is the child of two edges. -/
def IsTree (edges : List TreeEdge) : Prop := (edges.map (·.child)).Nodup

/-- The parent that is left when another place is offered. -/
def chosen (dominates : Nat → Nat → Bool) (present : Option Nat) (offer : Nat) : Option Nat :=
  match present with
  | none => some offer
  | some parent => if dominates parent offer then some offer else some parent

theorem tree_nil : IsTree [] := List.nodup_nil

/-- In a tree the parent of a place is at the other end of its edge. -/
theorem parentIn_eq_some_iff (tree : IsTree edges) :
    parentIn edges child = some parent ↔ ⟨parent, child⟩ ∈ edges := by
  constructor
  · intro found
    obtain ⟨edge, first, rfl⟩ := Option.map_eq_some_iff.mp found
    obtain rfl : edge.child = child := by simpa using List.find?_some first
    exact List.mem_of_find?_eq_some first
  · intro member
    cases first : edges.find? (·.child = child) with
    | none => simpa using List.find?_eq_none.mp first _ member
    | some edge =>
      have called : edge.child = child := by simpa using List.find?_some first
      have same : edge = ⟨parent, child⟩ :=
        List.inj_on_of_nodup_map tree (List.mem_of_find?_eq_some first) member called
      rw [parentIn, first, same, Option.map_some]

theorem parentIn_eq_none_iff :
    parentIn edges child = none ↔ ∀ edge ∈ edges, edge.child ≠ child := by
  simp [parentIn]

/-- A tree without the edge of a place holds the edges of all other places. -/
private theorem mem_without_iff (tree : IsTree edges) (found : parentIn edges child = some parent) :
    edge ∈ edges.filter (· ≠ ⟨parent, child⟩) ↔ edge ∈ edges ∧ edge.child ≠ child := by
  have member := (parentIn_eq_some_iff tree).mp found
  simp only [List.mem_filter, decide_eq_true_eq]
  refine and_congr_right fun inside => not_congr ⟨fun same => same ▸ rfl, fun called => ?_⟩
  exact List.inj_on_of_nodup_map tree inside member called

/-- A new edge to a place without one leaves a tree. -/
private theorem tree_extended (tree : IsTree edges) (fresh : ∀ edge ∈ edges, edge.child ≠ child) :
    IsTree (edges ++ [⟨parent, child⟩]) := by
  rw [IsTree, List.map_append]
  refine tree.append (List.nodup_singleton _) fun known member added => ?_
  obtain ⟨edge, inside, rfl⟩ := List.mem_map.mp member
  exact fresh edge inside (List.mem_singleton.mp added)

/-- Offering a parent leaves a tree. -/
theorem tree_adopt (tree : IsTree edges) : IsTree (adopt dominates parent edges child) := by
  unfold adopt
  split
  · rename_i orphan
    exact tree_extended tree (parentIn_eq_none_iff.mp orphan)
  · rename_i present found
    split
    · have kept : IsTree (edges.filter (· ≠ ⟨present, child⟩)) :=
        tree.sublist (List.filter_sublist.map _)
      exact tree_extended kept fun edge inside => ((mem_without_iff tree found).mp inside).2
    · exact tree

/-- The child chooses, and every other place keeps its parent. -/
theorem parentIn_adopt (tree : IsTree edges) :
    parentIn (adopt dominates parent edges child) other =
      if other = child then chosen dominates (parentIn edges child) parent
      else parentIn edges other := by
  refine Option.ext fun kept => ?_
  rw [parentIn_eq_some_iff (tree_adopt tree)]
  unfold adopt
  cases found : parentIn edges child with
  | none =>
    have orphan := parentIn_eq_none_iff.mp found
    by_cases same : other = child
    · subst same
      have absent : (⟨kept, other⟩ : TreeEdge) ∉ edges := fun member => orphan _ member rfl
      simp [chosen, absent, eq_comm]
    · simp [same, parentIn_eq_some_iff tree]
  | some present =>
    dsimp only [chosen]
    by_cases closer : dominates present parent = true
    · rw [if_pos closer, if_pos closer, List.mem_append, mem_without_iff tree found]
      by_cases same : other = child
      · simp [same, eq_comm]
      · simp [same, parentIn_eq_some_iff tree]
    · rw [if_neg closer, if_neg closer, ← parentIn_eq_some_iff tree]
      by_cases same : other = child
      · rw [if_pos same, same, found]
      · rw [if_neg same]

/-- A choice keeps the present parent or takes the one that is offered. -/
theorem chosen_cases {present : Option Nat} {offer kept : Nat}
    (choice : chosen dominates present offer = some kept) : offer = kept ∨ present = some kept := by
  cases present with
  | none => exact .inl (Option.some.inj choice)
  | some parent =>
    simp only [chosen] at choice
    split at choice
    · exact .inl (Option.some.inj choice)
    · exact .inr choice

/-- To be offered a place twice is to be offered it once. -/
private theorem chosen_twice (present : Option Nat) (offer : Nat) :
    chosen dominates (chosen dominates present offer) offer = chosen dominates present offer := by
  cases present with
  | none => simp [chosen]
  | some parent =>
    by_cases closer : dominates parent offer = true
    · simp [chosen, closer]
    · simp [chosen, closer]

/-- One place is offered to some others, which choose alike. -/
private theorem parentIn_adopted (children : List Nat) (tree : IsTree edges) :
    IsTree (children.foldl (adopt dominates parent) edges) ∧
      parentIn (children.foldl (adopt dominates parent) edges) other =
        if other ∈ children then chosen dominates (parentIn edges other) parent
        else parentIn edges other := by
  induction children generalizing edges with
  | nil => exact ⟨tree, by simp⟩
  | cons child rest ih =>
    obtain ⟨grown, chose⟩ := ih (tree_adopt tree)
    refine ⟨grown, chose.trans ?_⟩
    rw [parentIn_adopt tree]
    by_cases same : other = child
    · subst same
      simp [chosen_twice]
    · simp [same]

theorem parentIn_adoptAll (dominates : Nat → Nat → Bool) (parent other : Nat)
    (dominated : List Nat) (tree : IsTree edges) :
    IsTree (adoptAll dominates edges parent dominated) ∧
      parentIn (adoptAll dominates edges parent dominated) other =
        if other ∈ dominated ∧ other ≠ parent then chosen dominates (parentIn edges other) parent
        else parentIn edges other := by
  obtain ⟨grown, chose⟩ := parentIn_adopted (dominated.filter (· ≠ parent)) tree
  refine ⟨grown, chose.trans ?_⟩
  simp only [List.mem_filter, decide_eq_true_eq]

/-- The other places that dominate a place, in order. -/
def above (graph : FlowGraph) (place : Nat) : List Nat :=
  (List.range graph.size).filter fun parent => place ∈ graph.dominatedBy parent ∧ place ≠ parent

/-- A place is offered the places above it, in order. -/
private theorem parentIn_offered (graph : FlowGraph) (child : Nat) (parents : List Nat)
    (tree : IsTree edges) :
    let offered := parents.foldl
      (fun edges parent => adoptAll dominates edges parent (graph.dominatedBy parent)) edges
    IsTree offered ∧ parentIn offered child =
      (parents.filter fun parent =>
          child ∈ graph.dominatedBy parent ∧ child ≠ parent).foldl
        (chosen dominates) (parentIn edges child) := by
  induction parents generalizing edges with
  | nil => exact ⟨tree, rfl⟩
  | cons parent rest ih =>
    obtain ⟨grown, chose⟩ :=
      parentIn_adoptAll dominates parent child (graph.dominatedBy parent) tree
    obtain ⟨done, last⟩ := ih grown
    refine ⟨done, last.trans ?_⟩
    rw [chose]
    by_cases taken : child ∈ graph.dominatedBy parent ∧ child ≠ parent
    · rw [if_pos taken, List.filter_cons_of_pos (by simpa using taken), List.foldl_cons]
    · rw [if_neg taken, List.filter_cons_of_neg (by simpa using taken)]

/-- The places of a graph are offered in order, each to all that it dominates. -/
theorem edges_ofGraph (graph : FlowGraph) :
    (ofGraph graph).edges = (List.range graph.size).foldl
      (fun edges parent => adoptAll (ofGraph graph).dominates edges parent
        (graph.dominatedBy parent)) [] := by
  have listed : ((List.range graph.size).map graph.dominatedBy).zipIdx =
      (List.range graph.size).map fun parent => (graph.dominatedBy parent, parent) := by
    refine List.ext_getElem? fun place => ?_
    rw [List.getElem?_zipIdx, List.getElem?_map, List.getElem?_map]
    cases here : (List.range graph.size)[place]? with
    | none => rfl
    | some found =>
      obtain ⟨inside, same⟩ := List.getElem?_eq_some_iff.mp here
      rw [List.getElem_range] at same
      simp [same]
  change (((List.range graph.size).map graph.dominatedBy).zipIdx.foldl _ [] : List TreeEdge) = _
  rw [listed, List.foldl_map]
  rfl

/-- A dominator tree is a tree. -/
theorem tree_ofGraph (graph : FlowGraph) : IsTree (ofGraph graph).edges :=
  edges_ofGraph graph ▸ (parentIn_offered graph 0 _ tree_nil).1

/-- The parent of a place is what it chooses from the places above it. -/
theorem parent?_ofGraph (graph : FlowGraph) (place : Nat) :
    (ofGraph graph).parent? place =
      (above graph place).foldl (chosen (ofGraph graph).dominates) none := by
  rw [parent?, edges_ofGraph]
  exact (parentIn_offered graph place _ tree_nil).2

/-! ## The nearest of the places above -/

/-- Where the places above are in line, the choice ends at the one that all the others
dominate. -/
theorem chosen_is_nearest (dominates : Nat → Nat → Bool) (candidates : List Nat)
    (trans : ∀ a ∈ candidates, ∀ b ∈ candidates, ∀ c ∈ candidates,
      dominates a b = true → dominates b c = true → dominates a c = true)
    (total : ∀ a ∈ candidates, ∀ b ∈ candidates, dominates a b = true ∨ dominates b a = true) :
    (candidates = [] ∧ candidates.foldl (chosen dominates) none = none) ∨
      ∃ nearest ∈ candidates, candidates.foldl (chosen dominates) none = some nearest ∧
        ∀ candidate ∈ candidates, dominates candidate nearest = true := by
  induction candidates using List.reverseRecOn with
  | nil => exact .inl ⟨rfl, rfl⟩
  | append_singleton earlier last ih =>
    have before : ∀ a ∈ earlier, a ∈ earlier ++ [last] := fun a => List.mem_append_left _
    have here : last ∈ earlier ++ [last] := List.mem_append_right _ (List.mem_singleton_self _)
    have reflexive : dominates last last = true := (total last here last here).elim id id
    rw [List.foldl_concat]
    rcases ih (fun a ha b hb c hc => trans a (before a ha) b (before b hb) c (before c hc))
        (fun a ha b hb => total a (before a ha) b (before b hb)) with
      ⟨rfl, none⟩ | ⟨nearest, inside, found, all⟩
    · exact .inr ⟨last, here, by rw [none, chosen], by simpa using reflexive⟩
    · right
      rw [found, chosen]
      by_cases closer : dominates nearest last = true
      · refine ⟨last, here, if_pos closer, List.forall_mem_append.mpr ⟨fun a ha => ?_, ?_⟩⟩
        · exact trans a (before a ha) nearest (before nearest inside) last here (all a ha) closer
        · simpa using reflexive
      · refine ⟨nearest, before nearest inside, if_neg closer,
          List.forall_mem_append.mpr ⟨all, ?_⟩⟩
        simpa using (total nearest (before nearest inside) last here).resolve_left closer

/-- No parent is left just if none was offered. -/
theorem chosen_eq_none_iff {candidates : List Nat} :
    candidates.foldl (chosen dominates) none = none ↔ candidates = [] := by
  refine ⟨fun left => ?_, fun empty => empty ▸ rfl⟩
  cases candidates using List.reverseRecOn with
  | nil => rfl
  | append_singleton earlier last =>
    rw [List.foldl_concat] at left
    unfold chosen at left
    split at left
    · cases left
    · split at left <;> cases left

/-- The parent that is left is one of those that were offered. -/
theorem chosen_mem {candidates : List Nat}
    (found : candidates.foldl (chosen dominates) none = some parent) : parent ∈ candidates := by
  induction candidates using List.reverseRecOn generalizing parent with
  | nil => cases found
  | append_singleton earlier last ih =>
    rw [List.foldl_concat] at found
    cases before : earlier.foldl (chosen dominates) none with
    | none =>
      rw [before] at found
      exact List.mem_append_right _ (List.mem_singleton.mpr (Option.some.inj found).symm)
    | some present =>
      rw [before, chosen] at found
      split at found
      · exact List.mem_append_right _ (List.mem_singleton.mpr (Option.some.inj found).symm)
      · exact List.mem_append_left _ (Option.some.inj found ▸ ih before)

/-- Where every candidate dominates those of one kind, and these dominate no others, the choice
ends at the last candidate of that kind. -/
theorem chosen_is_last (dominates : Nat → Nat → Bool) (kind : Nat → Prop) (candidates : List Nat)
    (taken : ∀ a ∈ candidates, ∀ b ∈ candidates, kind b → dominates a b = true)
    (kept : ∀ a ∈ candidates, ∀ b ∈ candidates, kind a → ¬kind b → dominates a b = false)
    (any : ∃ a ∈ candidates, kind a) :
    ∃ earlier last later, candidates = earlier ++ last :: later ∧ kind last ∧
      (∀ b ∈ later, ¬kind b) ∧ candidates.foldl (chosen dominates) none = some last := by
  induction candidates using List.reverseRecOn with
  | nil =>
    obtain ⟨a, member, -⟩ := any
    cases member
  | append_singleton earlier new ih =>
    have before : ∀ a ∈ earlier, a ∈ earlier ++ [new] := fun a => List.mem_append_left _
    have here : new ∈ earlier ++ [new] := List.mem_append_right _ (List.mem_singleton_self _)
    rw [List.foldl_concat]
    by_cases fits : kind new
    · refine ⟨earlier, new, [], rfl, fits, by simp, ?_⟩
      cases found : earlier.foldl (chosen dominates) none with
      | none => rfl
      | some present =>
        rw [chosen, if_pos (taken present (before _ (chosen_mem found)) new here fits)]
    · have earlier' : ∃ a ∈ earlier, kind a := by
        obtain ⟨a, member, fits'⟩ := any
        refine ⟨a, (List.mem_append.mp member).resolve_right fun same => fits ?_, fits'⟩
        exact List.mem_singleton.mp same ▸ fits'
      obtain ⟨first, last, later, rfl, fits', others, found⟩ :=
        ih (fun a ha b hb => taken a (before a ha) b (before b hb))
          (fun a ha b hb => kept a (before a ha) b (before b hb)) earlier'
      have inside : last ∈ first ++ last :: later := chosen_mem found
      refine ⟨first, last, later ++ [new], by simp, fits',
        List.forall_mem_append.mpr ⟨others, by simpa using fits⟩, ?_⟩
      rw [found, chosen, kept last (before _ inside) new here fits' fits]
      simp

end KernelGuard.DomTree
