import KernelGuard.Proofs.ImmediateDominance
import Mathlib.Logic.Relation

/-! How far a dominator tree is a forest. Whatever lies above a place that some walk gets to
lies on every walk to it, so its parents come to an end. A place that no walk gets to is
dominated by every other one, and the last of them that no walk gets to either becomes its
parent. So from two such places on, the last two are parents of each other, and the parents
of the others lead there. -/
namespace KernelGuard

namespace DomTree

/-- One place has another one as its parent. -/
def IsParent (tree : DomTree) (child parent : Nat) : Prop := tree.parent? child = some parent

/-- From parent to parent, a place comes to one that has none. -/
def HasRoot (tree : DomTree) (place : Nat) : Prop :=
  ∃ root, Relation.ReflTransGen tree.IsParent place root ∧ tree.parent? root = none

/-- From child to child, one place comes to another one. -/
def Descends (tree : DomTree) : Nat → Nat → Prop :=
  Relation.TransGen fun parent child => child ∈ tree.children parent

variable {tree : DomTree} {place : Nat}

/-- A place that comes to an end of its parents does not come back to itself on the way. -/
theorem not_above_itself_of_root (rooted : tree.HasRoot place) :
    ¬Relation.TransGen tree.IsParent place place := by
  obtain ⟨root, up, none⟩ := rooted
  induction up using Relation.ReflTransGen.head_induction_on with
  | refl =>
    intro circle
    obtain ⟨parent, next, -⟩ := Relation.TransGen.head'_iff.mp circle
    exact Option.some_ne_none _ (next.symm.trans none)
  | head next _ ih =>
    intro circle
    obtain ⟨parent, next', around⟩ := Relation.TransGen.head'_iff.mp circle
    obtain rfl := Option.some.inj (next.symm.trans next')
    exact ih (.tail' around next)

end DomTree

/-- Two places are the last two of a kind. -/
structure AreLastTwo (kind : Nat → Prop) (a b : Nat) : Prop where
  different : a ≠ b
  left : kind a
  right : kind b
  others : ∀ other, kind other → other = a ∨ other = b ∨ other < a ∧ other < b

theorem AreLastTwo.symm {kind : Nat → Prop} (two : AreLastTwo kind a b) : AreLastTwo kind b a where
  different := two.different.symm
  left := two.right
  right := two.left
  others other fits := by
    rcases two.others other fits with same | same | before
    · exact .inr (.inl same)
    · exact .inl same
    · exact .inr (.inr before.symm)

namespace FlowGraph

/-- Some walk gets to a place. -/
def IsMet (graph : FlowGraph) (place : Nat) : Prop := ∃ places, graph.Walk place places

/-- No walk gets to a place. -/
def IsLost (graph : FlowGraph) (place : Nat) : Prop := place < graph.size ∧ ¬graph.IsMet place

/-- The tree of a graph answers which places lie on every walk to a place. -/
def Answers (graph : FlowGraph) : Prop :=
  ∀ a b, a < graph.size → b < graph.size →
    ((DomTree.ofGraph graph).dominates a b = true ↔ graph.OnEveryWalk a b)

variable {graph : FlowGraph} {place parent other a b : Nat} {places : List Nat}

theorem mem_children_iff :
    place ∈ (DomTree.ofGraph graph).children parent ↔
      (DomTree.ofGraph graph).IsParent place parent := by
  rw [DomTree.IsParent, DomTree.parent?, DomTree.parentIn_eq_some_iff (DomTree.tree_ofGraph graph)]
  simp only [DomTree.children, List.mem_map, List.mem_filter, decide_eq_true_eq]
  constructor
  · rintro ⟨⟨_, _⟩, ⟨member, rfl⟩, rfl⟩
    exact member
  · exact fun member => ⟨_, ⟨member, rfl⟩, rfl⟩

/-- Children lead one way as parents lead the other. -/
theorem descends_iff :
    (DomTree.ofGraph graph).Descends a b ↔
      Relation.TransGen (DomTree.ofGraph graph).IsParent b a := by
  have children : (fun parent child => child ∈ (DomTree.ofGraph graph).children parent) =
      Function.swap (DomTree.ofGraph graph).IsParent :=
    funext fun _ => funext fun _ => propext mem_children_iff
  rw [DomTree.Descends, children, Relation.transGen_swap]

/-- A parent is another place, and it dominates its child. -/
theorem parent_dominates (answers : graph.Answers) (inside : place < graph.size)
    (up : (DomTree.ofGraph graph).IsParent place parent) :
    StrictlyDominates graph.size graph.OnEveryWalk parent place := by
  rw [DomTree.IsParent, DomTree.parent?_ofGraph] at up
  exact (mem_above_iff answers inside).mp (DomTree.chosen_mem up)

/-! ## Places that some walk gets to -/

/-- Some walk gets to whatever lies on every walk to a place that some walk gets to. -/
theorem met_of_onEveryWalk (met : graph.IsMet place) (passes : graph.OnEveryWalk parent place) :
    graph.IsMet parent := by
  obtain ⟨places, walk⟩ := met
  obtain ⟨late, early, -, -, begins, -⟩ := walk.cut (passes places walk)
  exact ⟨_, begins⟩

/-- The parents of a place end if some walk gets to it: a walk to it is longer than its part
up to the parent. -/
theorem met_hasRoot (answers : graph.Answers) (inside : place < graph.size)
    (walk : graph.Walk place places) : (DomTree.ofGraph graph).HasRoot place := by
  induction size : places.length using Nat.strongRecOn generalizing place places with
  | ind size ih =>
    subst size
    cases above : (DomTree.ofGraph graph).parent? place with
    | none => exact ⟨place, .refl, above⟩
    | some parent =>
      obtain ⟨bounded, different, passes⟩ := parent_dominates answers inside above
      obtain ⟨late, early, rfl, -, begins, -⟩ := walk.cut (passes places walk)
      have shorter : (parent :: early).length < (late ++ parent :: early).length := by
        cases late with
        | nil =>
          -- both walks would begin at the same place
          cases walk <;> exact absurd rfl different
        | cons => simp only [List.cons_append, List.length_cons, List.length_append]; omega
      obtain ⟨root, up, none⟩ := ih _ shorter bounded begins rfl
      exact ⟨root, .head above up, none⟩

/-! ## Places that no walk gets to -/

/-- A place is the last lost one besides another. -/
structure IsLastBeside (graph : FlowGraph) (place last : Nat) : Prop where
  lost : graph.IsLost last
  apart : last ≠ place
  others : ∀ other, graph.IsLost other → other ≠ place → other ≤ last

theorem IsLastBeside.unique (first : graph.IsLastBeside place a)
    (second : graph.IsLastBeside place b) : a = b :=
  Nat.le_antisymm (second.others a first.lost first.apart) (first.others b second.lost second.apart)

/-- A lost place takes the last other one as its parent. Everything dominates a lost place, so
it moves on to each that it is offered; it stays with the last, since a lost place lies on no
walk to any that is met. -/
theorem lost_parent (answers : graph.Answers) (lost : graph.IsLost place)
    (another : graph.IsLost other) (apart : other ≠ place) :
    ∃ last, graph.IsLastBeside place last ∧ (DomTree.ofGraph graph).IsParent place last := by
  have everywhere : ∀ {a b}, graph.IsLost b → graph.OnEveryWalk a b :=
    fun lost places walk => absurd ⟨places, walk⟩ lost.2
  have member : ∀ {a}, a ∈ DomTree.above graph place ↔ a < graph.size ∧ a ≠ place := fun {a} => by
    rw [mem_above_iff answers lost.1, StrictlyDominates, and_iff_left (everywhere lost)]
  have taken : ∀ a ∈ DomTree.above graph place, ∀ b ∈ DomTree.above graph place,
      graph.IsLost b → (DomTree.ofGraph graph).dominates a b = true :=
    fun a offered b _ lost => (answers a b (member.mp offered).1 lost.1).mpr (everywhere lost)
  have kept : ∀ a ∈ DomTree.above graph place, ∀ b ∈ DomTree.above graph place,
      graph.IsLost a → ¬graph.IsLost b → (DomTree.ofGraph graph).dominates a b = false := by
    intro a _ b offered lost found
    have inside : b < graph.size := (member.mp offered).1
    have met : graph.IsMet b := not_not.mp fun unmet => found ⟨inside, unmet⟩
    refine Bool.eq_false_iff.mpr fun dominates => lost.2 ?_
    exact met_of_onEveryWalk met ((answers a b lost.1 inside).mp dominates)
  obtain ⟨earlier, last, later, split, lost', met, chosen⟩ :=
    DomTree.chosen_is_last _ graph.IsLost (DomTree.above graph place) taken kept
      ⟨other, member.mpr ⟨another.1, apart⟩, another⟩
  rw [← DomTree.parent?_ofGraph] at chosen
  refine ⟨last, ⟨lost', (member.mp (split ▸ List.mem_append_right _ List.mem_cons_self)).2,
    fun third lost apart => ?_⟩, chosen⟩
  have ordered : (earlier ++ last :: later).Pairwise (· < ·) :=
    split ▸ List.pairwise_lt_range.filter _
  have offered : third ∈ earlier ++ last :: later := split ▸ member.mpr ⟨lost.1, apart⟩
  rcases List.mem_append.mp offered with before | after
  · exact Nat.le_of_lt ((List.pairwise_append.mp ordered).2.2 third before last List.mem_cons_self)
  · rcases List.mem_cons.mp after with rfl | behind
    · exact Nat.le_refl _
    · exact absurd lost (met third behind)

/-- The parent of a lost place is the last other one, if there is one. -/
theorem lost_parent_is_last (answers : graph.Answers) (lost : graph.IsLost place)
    (another : graph.IsLost other) (apart : other ≠ place)
    (up : (DomTree.ofGraph graph).IsParent place parent) : graph.IsLastBeside place parent := by
  obtain ⟨last, beside, up'⟩ := lost_parent answers lost another apart
  rw [Option.some.inj (up.symm.trans up')]
  exact beside

/-- From a lost place that is not the only one, parents lead on without end, from one lost
place to the next. -/
theorem lost_above_lost (answers : graph.Answers) (lost : graph.IsLost place)
    (another : graph.IsLost other) (apart : other ≠ place)
    (up : Relation.ReflTransGen (DomTree.ofGraph graph).IsParent place parent) :
    graph.IsLost parent ∧ ∃ third, graph.IsLost third ∧ third ≠ parent := by
  induction up with
  | refl => exact ⟨lost, other, another, apart⟩
  | tail _ next ih =>
    obtain ⟨lost', third, another, apart⟩ := ih
    have beside := lost_parent_is_last answers lost' another apart next
    exact ⟨beside.lost, _, lost', beside.apart.symm⟩

/-- The parents of a place end just if some walk gets to it or to every other place. -/
theorem hasRoot_iff (answers : graph.Answers) (inside : place < graph.size) :
    (DomTree.ofGraph graph).HasRoot place ↔
      graph.IsMet place ∨ ∀ other, graph.IsLost other → other = place := by
  constructor
  · rintro ⟨root, up, none⟩
    by_contra both
    simp only [not_or, not_forall] at both
    obtain ⟨unmet, other, lost', different⟩ := both
    obtain ⟨lost, third, another, apart⟩ :=
      lost_above_lost answers ⟨inside, unmet⟩ lost' different up
    obtain ⟨last, -, next⟩ := lost_parent answers lost another apart
    exact Option.some_ne_none _ (next.symm.trans none)
  · rintro (⟨places, walk⟩ | alone)
    · exact met_hasRoot answers inside walk
    · cases above : (DomTree.ofGraph graph).parent? place with
      | none => exact ⟨place, .refl, above⟩
      | some parent =>
        obtain ⟨bounded, different, -⟩ := parent_dominates answers inside above
        obtain ⟨places, walk⟩ : graph.IsMet parent :=
          not_not.mp fun unmet => different (alone parent ⟨bounded, unmet⟩)
        obtain ⟨root, up, none⟩ := met_hasRoot answers bounded walk
        exact ⟨root, .head above up, none⟩

/-- Each of the last two lost places is the last one beside the other. -/
theorem IsLastBeside.of_last_two (two : AreLastTwo graph.IsLost a b) : graph.IsLastBeside a b := by
  refine ⟨two.right, two.different.symm, fun other lost apart => ?_⟩
  rcases two.others other lost with same | rfl | before
  · exact absurd same apart
  · exact Nat.le_refl _
  · exact Nat.le_of_lt before.2

/-- The last two lost places are parents of each other. -/
theorem last_two_parents (answers : graph.Answers) (two : AreLastTwo graph.IsLost a b) :
    (DomTree.ofGraph graph).IsParent a b := by
  obtain ⟨last, beside, up⟩ := lost_parent answers two.left two.right two.different.symm
  rwa [IsLastBeside.unique (.of_last_two two) beside]

/-- Just the last two lost places are above themselves. -/
theorem above_itself_iff (answers : graph.Answers) (inside : place < graph.size) :
    Relation.TransGen (DomTree.ofGraph graph).IsParent place place ↔
      ∃ partner, AreLastTwo graph.IsLost place partner := by
  constructor
  · intro circle
    have endless := mt DomTree.not_above_itself_of_root (not_not.mpr circle)
    simp only [hasRoot_iff answers inside, not_or, not_forall] at endless
    obtain ⟨unmet, other, another, apart⟩ := endless
    have lost : graph.IsLost place := ⟨inside, unmet⟩
    obtain ⟨below, around, up⟩ := Relation.TransGen.tail'_iff.mp circle
    obtain ⟨partner, beside, -⟩ := lost_parent answers lost another apart
    obtain ⟨lost', third, another', apart'⟩ := lost_above_lost answers lost another apart around
    have beside' := lost_parent_is_last answers lost' another' apart' up
    -- the place is the last lost one beside the one below it, as its partner is beside the place
    have away : place ≠ below := beside'.apart
    have onward : partner ≠ below → partner ≤ place := beside'.others partner beside.lost
    refine ⟨partner, beside.apart.symm, lost, beside.lost, fun third fits => ?_⟩
    have fromPlace : third ≠ place → third ≤ partner := beside.others third fits
    have fromBelow : third ≠ below → third ≤ place := beside'.others third fits
    omega
  · rintro ⟨partner, two⟩
    exact .head (last_two_parents answers two) (.single (last_two_parents answers two.symm))

end FlowGraph

namespace Func

variable {func : Func} {function : Module.Function} {direction : Direction} {place : Nat}

/-- Control gets to a place from the entry or, backward, from a place to a block without
successors. -/
def IsMet (func : Func) (direction : Direction) (place : Nat) : Prop :=
  match direction with
  | .forward => func.IsEntered place
  | .backward => func.IsLeft place

/-- A block that control does not get to or, backward, does not get out from. -/
def IsLost (func : Func) (direction : Direction) (place : Nat) : Prop :=
  place < func.blocks.length ∧ ¬func.IsMet direction place

private theorem size_along : (FlowGraph.along direction func.blocks).size = func.blocks.length := by
  cases direction <;> rfl

private theorem answers_along (linked : func.IsLinked) (direction : Direction) :
    (FlowGraph.along direction func.blocks).Answers := by
  intro a b first second
  rw [size_along] at first second
  cases direction with
  | forward =>
    exact (dominates_forward_iff linked first second).trans
      (on_every_forward_walk_iff second a).symm
  | backward =>
    exact (dominates_backward_iff linked first second).trans
      (on_every_backward_walk_iff linked a).symm

private theorem met_along_iff (linked : func.IsLinked) (inside : place < func.blocks.length) :
    (FlowGraph.along direction func.blocks).IsMet place ↔ func.IsMet direction place := by
  cases direction with
  | forward =>
    exact ⟨fun ⟨_, walk⟩ => ⟨_, path_of_forward_walk walk⟩,
      fun ⟨_, path⟩ => ⟨_, forward_walk inside path⟩⟩
  | backward =>
    constructor
    · rintro ⟨places, walk⟩
      obtain ⟨exit, last, path⟩ := (backward_walk_iff linked).mp walk
      exact ⟨exit, places, last, path⟩
    · rintro ⟨exit, places, last, path⟩
      exact ⟨places, (backward_walk_iff linked).mpr ⟨exit, last, path⟩⟩

private theorem lost_along (linked : func.IsLinked) (direction : Direction) :
    (FlowGraph.along direction func.blocks).IsLost = func.IsLost direction := by
  funext place
  refine propext ?_
  rw [FlowGraph.IsLost, IsLost, size_along]
  exact and_congr_right fun inside => not_congr (met_along_iff linked inside)

/-- A dominator tree is a forest as far as control gets. Parents end for a place that control
gets to, and for one that it does not get to if there is no other. Of two or more such places
the last two are parents of each other, and just these are among their own descendants. -/
theorem forest_up_to_last_two_lost (built : ofModule function = .ok func)
    (inside : place < func.blocks.length) (direction : Direction) :
    ((func.domTree direction).HasRoot place ↔
      func.IsMet direction place ∨ ∀ other, func.IsLost direction other → other = place) ∧
    ((func.domTree direction).Descends place place ↔
      ∃ partner, AreLastTwo (func.IsLost direction) place partner) ∧
    ∀ partner, AreLastTwo (func.IsLost direction) place partner →
      (func.domTree direction).IsParent place partner := by
  have linked := linked_ofModule built
  have answers := answers_along linked direction
  have inside' : place < (FlowGraph.along direction func.blocks).size := size_along.symm ▸ inside
  have rooted := FlowGraph.hasRoot_iff answers inside'
  have circles := FlowGraph.descends_iff.trans (FlowGraph.above_itself_iff answers inside')
  rw [met_along_iff linked inside, lost_along linked] at rooted
  rw [lost_along linked] at circles
  refine ⟨rooted, circles, fun partner two => ?_⟩
  rw [← lost_along linked] at two
  exact FlowGraph.last_two_parents answers two

/-- An entry that leaves at once, and two blocks that lead only to themselves. -/
def strandedFunction : Module.Function where
  name := "stranded"
  returnType := .void
  params := []
  blocks := [
    { label := "entry", phis := [], instrs := [], terminator := .ret none },
    { label := "left", phis := [], instrs := [], terminator := .jump "left" },
    { label := "right", phis := [], instrs := [], terminator := .jump "right" }]

/-- Control gets to the entry either way, so its parents end and it is no descendant of its own. -/
theorem stranded_entry_rooted : ∃ func, ofModule strandedFunction = .ok func ∧ ∀ direction,
    func.IsMet direction 0 ∧ (func.domTree direction).HasRoot 0 ∧
    ¬(func.domTree direction).Descends 0 0 := by
  obtain ⟨func, built, count, exits⟩ : ∃ func, ofModule strandedFunction = .ok func ∧
      func.blocks.length = 3 ∧ func.exits = [0] := ⟨_, rfl, rfl, by cbv⟩
  refine ⟨func, built, fun direction => ?_⟩
  have met : func.IsMet direction 0 := by
    cases direction with
    | forward => exact ⟨[0], .here⟩
    | backward => exact ⟨0, [0], mem_exits_iff.mp (by simp [exits]), .here⟩
  obtain ⟨rooted, circles, -⟩ :=
    forest_up_to_last_two_lost built (show 0 < func.blocks.length by omega) direction
  refine ⟨met, rooted.mpr (.inl met), fun around => ?_⟩
  obtain ⟨partner, two⟩ := circles.mp around
  exact two.left.2 met

/-- The two lost blocks are parents of each other either way: neither comes to a root, and each
is a descendant of its own. -/
theorem stranded_blocks_circle : ∃ func, ofModule strandedFunction = .ok func ∧
    (func.labelAt 1 = "left" ∧ func.labelAt 2 = "right") ∧ ∀ direction,
    (func.domTree direction).parent? 1 = some 2 ∧ (func.domTree direction).parent? 2 = some 1 ∧
    ¬(func.domTree direction).HasRoot 1 ∧ (func.domTree direction).Descends 1 1 := by
  obtain ⟨func, built, labels, parents⟩ : ∃ func, ofModule strandedFunction = .ok func ∧
      (func.labelAt 1 = "left" ∧ func.labelAt 2 = "right") ∧
      ((func.domTree .forward).parent? 1 = some 2 ∧ (func.domTree .forward).parent? 2 = some 1 ∧
        (func.domTree .backward).parent? 1 = some 2 ∧
          (func.domTree .backward).parent? 2 = some 1) :=
    ⟨_, rfl, ⟨rfl, rfl⟩, by cbv⟩
  refine ⟨func, built, labels, fun direction => ?_⟩
  obtain ⟨left, right⟩ : (func.domTree direction).IsParent 1 2 ∧
      (func.domTree direction).IsParent 2 1 := by
    cases direction with
    | forward => exact ⟨parents.1, parents.2.1⟩
    | backward => exact parents.2.2
  have circle : Relation.TransGen (func.domTree direction).IsParent 1 1 := .head left (.single right)
  exact ⟨left, right, fun rooted => DomTree.not_above_itself_of_root rooted circle,
    FlowGraph.descends_iff.mpr circle⟩

end Func

end KernelGuard
