import KernelGuard.Proofs.ParentSelection
import KernelGuard.Proofs.PathDominance

/-! The parent of a place is its immediate dominator. The places that lie on every walk to a
place that some walk gets to are in line: of two of them, one lies on every walk to the other.
So the parent that a place chooses, one offer after another, is the nearest of them, whatever
the offers of places that no walk gets to. This holds along successors from the entry as it
holds along predecessors from the exits. -/
namespace KernelGuard

/-- Among the places up to a bound, another one dominates a place. -/
def StrictlyDominates (size : Nat) (dominates : Nat → Nat → Prop) (a b : Nat) : Prop :=
  a < size ∧ a ≠ b ∧ dominates a b

/-- It does so nearest by: whatever else dominates the place dominates it as well. -/
def ImmediatelyDominates (size : Nat) (dominates : Nat → Nat → Prop) (a b : Nat) : Prop :=
  StrictlyDominates size dominates a b ∧
    ∀ other, StrictlyDominates size dominates other b → dominates other a

namespace FlowGraph

/-- A way from a root to a place, the place first and the root last. -/
inductive Walk (graph : FlowGraph) : Nat → List Nat → Prop where
  | start (root : place ∈ graph.roots) : Walk graph place [place]
  | onward (earlier : Walk graph source places) (edge : place ∈ graph.next source) :
      Walk graph place (place :: places)

/-- Every walk to a place passes another one. -/
def OnEveryWalk (graph : FlowGraph) (passed place : Nat) : Prop :=
  ∀ places, graph.Walk place places → passed ∈ places

variable {graph : FlowGraph} {place passed a b c : Nat} {places : List Nat}

/-- A walk can be cut where it passes a place for the last time, and its first part exchanged
for any other way to that place. -/
theorem Walk.cut (walk : graph.Walk place places) (passes : passed ∈ places) :
    ∃ late early, places = late ++ passed :: early ∧ passed ∉ late ∧
      graph.Walk passed (passed :: early) ∧
      ∀ other, graph.Walk passed other → graph.Walk place (late ++ other) := by
  induction walk with
  | start root =>
    obtain rfl := List.mem_singleton.mp passes
    exact ⟨[], [], rfl, List.not_mem_nil, .start root, fun other walk => walk⟩
  | @onward source places place earlier edge ih =>
    by_cases here : passed = place
    · subst here
      exact ⟨[], places, rfl, List.not_mem_nil, .onward earlier edge, fun other walk => walk⟩
    · obtain ⟨late, early, rfl, last, begins, exchange⟩ :=
        ih ((List.mem_cons.mp passes).resolve_left here)
      exact ⟨place :: late, early, rfl, by simp [here, last], begins,
        fun other walk => .onward (exchange other walk) edge⟩

/-! ## Dominance as an order -/

theorem onEveryWalk_trans (first : graph.OnEveryWalk a b) (second : graph.OnEveryWalk b c) :
    graph.OnEveryWalk a c := by
  intro places walk
  obtain ⟨late, early, rfl, -, begins, -⟩ := walk.cut (second places walk)
  exact List.mem_append_right _ (first _ begins)

/-- Of two places on every walk to a third, one lies on every walk to the other. Otherwise a
walk to the third could come round one of them, go on to the other at last, and so have come
round both. -/
theorem onEveryWalk_total (reached : graph.Walk place places)
    (first : graph.OnEveryWalk a place) (second : graph.OnEveryWalk b place) :
    graph.OnEveryWalk a b ∨ graph.OnEveryWalk b a := by
  by_contra apart
  simp only [OnEveryWalk, not_or, not_forall] at apart
  obtain ⟨⟨toB, walkB, withoutA⟩, ⟨toA, walkA, withoutB⟩⟩ := apart
  obtain ⟨lateB, earlyB, -, lastB, -, exchangeB⟩ := reached.cut (second places reached)
  have roundA := exchangeB toB walkB
  have passes : a ∈ lateB := (List.mem_append.mp (first _ roundA)).resolve_right withoutA
  obtain ⟨lateA, earlyA, same, lastA, -, exchangeA⟩ := roundA.cut (first _ roundA)
  have apartB : b ∉ lateA := by
    rcases List.append_eq_append_iff.mp same with ⟨more, longer, -⟩ | ⟨more, longer, -⟩
    · exact absurd (longer ▸ List.mem_append_left _ passes) lastA
    · exact fun inside => lastB (longer ▸ List.mem_append_left _ inside)
  exact (List.mem_append.mp (second _ (exchangeA toA walkA))).elim apartB withoutB

/-- Two places that lie on every walk to each other are one, if a walk gets there: a walk to
the one would hold a shorter one. -/
theorem onEveryWalk_antisymm (reached : graph.Walk b places)
    (first : graph.OnEveryWalk a b) (second : graph.OnEveryWalk b a) : a = b := by
  induction size : places.length using Nat.strongRecOn generalizing places with
  | ind size ih =>
    subst size
    by_contra different
    obtain ⟨late, early, rfl, -, begins, -⟩ := reached.cut (first places reached)
    obtain ⟨later, earlier, same, -, again, -⟩ := begins.cut (second _ begins)
    have shorter : (b :: earlier).length < (late ++ a :: early).length := by
      cases later with
      | nil => exact absurd (List.cons.inj same).1 different
      | cons _ later =>
        have lengths := congrArg List.length same
        simp only [List.length_append, List.length_cons] at lengths ⊢
        omega
    exact different (ih _ shorter again rfl)

/-! ## The parent -/

theorem mem_above_iff
    (answers : ∀ a b, a < graph.size → b < graph.size →
      ((DomTree.ofGraph graph).dominates a b = true ↔ graph.OnEveryWalk a b))
    (inside : place < graph.size) :
    a ∈ DomTree.above graph place ↔ StrictlyDominates graph.size graph.OnEveryWalk a place := by
  simp only [DomTree.above, List.mem_filter, List.mem_range, decide_eq_true_eq,
    StrictlyDominates]
  refine and_congr_right fun bounded => ?_
  rw [← DomTree.dominates_ofGraph bounded, answers a place bounded inside, and_comm, ne_comm]

/-- The tree of a graph gives a place that some walk gets to the nearest of the places on every
walk to it, if there are any. -/
theorem parent_is_nearest (graph : FlowGraph)
    (answers : ∀ a b, a < graph.size → b < graph.size →
      ((DomTree.ofGraph graph).dominates a b = true ↔ graph.OnEveryWalk a b))
    (inside : place < graph.size) (reached : graph.Walk place places) :
    (∀ nearest, (DomTree.ofGraph graph).parent? place = some nearest ↔
      ImmediatelyDominates graph.size graph.OnEveryWalk nearest place) ∧
    ((∃ nearest, (DomTree.ofGraph graph).parent? place = some nearest) ↔
      ∃ other, StrictlyDominates graph.size graph.OnEveryWalk other place) := by
  have member := fun a => @mem_above_iff graph place a answers inside
  have strict := fun a (above : a ∈ DomTree.above graph place) => (member a).mp above
  have chosen := DomTree.chosen_is_nearest (DomTree.ofGraph graph).dominates
    (DomTree.above graph place)
    (fun a ha b hb c hc first second => (answers a c (strict a ha).1 (strict c hc).1).mpr
      (onEveryWalk_trans ((answers a b (strict a ha).1 (strict b hb).1).mp first)
        ((answers b c (strict b hb).1 (strict c hc).1).mp second)))
    (fun a ha b hb => (onEveryWalk_total reached (strict a ha).2.2 (strict b hb).2.2).imp
      (answers a b (strict a ha).1 (strict b hb).1).mpr
      (answers b a (strict b hb).1 (strict a ha).1).mpr)
  rw [← DomTree.parent?_ofGraph] at chosen
  rcases chosen with ⟨empty, none⟩ | ⟨nearest, above, found, all⟩
  · have alone : ∀ other, ¬StrictlyDominates graph.size graph.OnEveryWalk other place := by
      intro other dominates
      simpa [empty] using (member other).mpr dominates
    rw [none]
    exact ⟨fun other => ⟨nofun, fun immediate => absurd immediate.1 (alone other)⟩,
      ⟨nofun, fun ⟨other, dominates⟩ => absurd dominates (alone other)⟩⟩
  · have immediate : ImmediatelyDominates graph.size graph.OnEveryWalk nearest place := by
      refine ⟨strict nearest above, fun other dominates => ?_⟩
      exact (answers other nearest dominates.1 (strict nearest above).1).mp
        (all other ((member other).mpr dominates))
    rw [found]
    refine ⟨fun other => ⟨fun same => Option.some.inj same ▸ immediate, fun other' => ?_⟩,
      ⟨fun _ => ⟨nearest, immediate.1⟩, fun _ => ⟨nearest, rfl⟩⟩⟩
    obtain ⟨late, early, -, -, begins, -⟩ := reached.cut (other'.1.2.2 places reached)
    exact congrArg some
      (onEveryWalk_antisymm begins (other'.2 nearest immediate.1) (immediate.2 other other'.1))

end FlowGraph

namespace Func

variable {func : Func} {source target place : Nat} {places : List Nat}

/-! ## Walks and paths -/

/-- A walk along successors is a path from the entry, read backward. -/
private theorem forward_walk_of_path (path : func.Path source target places) {before : List Nat}
    (walk : (FlowGraph.forward func.blocks).Walk source (source :: before)) :
    (FlowGraph.forward func.blocks).Walk target (places.reverse ++ before) := by
  induction path generalizing before with
  | here => exact walk
  | @step source next target places edge rest ih =>
    have onward := ih (.onward walk (mem_forward_next.mpr edge))
    rwa [List.reverse_cons, List.append_assoc]

theorem path_of_forward_walk
    (walk : (FlowGraph.forward func.blocks).Walk target places) :
    func.Path 0 target places.reverse := by
  induction walk with
  | start root =>
    simp only [FlowGraph.forward] at root
    split at root
    · cases root
    · rw [List.mem_singleton.mp root]
      exact .here
  | onward _ edge ih =>
    rw [List.reverse_cons]
    exact ih.extend (mem_forward_next.mp edge)

/-- Control gets from the entry to a place. -/
def IsEntered (func : Func) (place : Nat) : Prop := ∃ places, func.Path 0 place places

/-- Control gets from a place to a block without successors. -/
def IsLeft (func : Func) (place : Nat) : Prop :=
  ∃ exit places, func.IsExit exit ∧ func.Path place exit places

theorem forward_walk (inside : place < func.blocks.length)
    (path : func.Path 0 place places) :
    (FlowGraph.forward func.blocks).Walk place places.reverse := by
  have entry : 0 ∈ (FlowGraph.forward func.blocks).roots := by
    simp [FlowGraph.forward, List.ne_nil_of_length_pos (Nat.zero_lt_of_lt inside)]
  simpa using forward_walk_of_path path (.start entry)

theorem on_every_forward_walk_iff (inside : place < func.blocks.length) (passed : Nat) :
    (FlowGraph.forward func.blocks).OnEveryWalk passed place ↔ func.OnEveryWayIn passed place := by
  refine ⟨fun every places path => ?_, fun every places walk => ?_⟩
  · exact List.mem_reverse.mp (every _ (forward_walk inside path))
  · exact List.mem_reverse.mp (every _ (path_of_forward_walk walk))

/-- A walk along predecessors is a path to an exit. -/
theorem backward_walk_iff (linked : func.IsLinked) :
    (FlowGraph.backward func.blocks).Walk source places ↔
      ∃ exit, func.IsExit exit ∧ func.Path source exit places := by
  constructor
  · intro walk
    induction walk with
    | start root => exact ⟨_, mem_exits_iff.mp root, .here⟩
    | onward _ edge ih =>
      obtain ⟨exit, last, path⟩ := ih
      exact ⟨exit, last, .step ((mem_backward_next linked).mp edge) path⟩
  · rintro ⟨exit, last, path⟩
    induction path with
    | here => exact .start (mem_exits_iff.mpr last)
    | step edge _ ih => exact .onward (ih last) ((mem_backward_next linked).mpr edge)

theorem on_every_backward_walk_iff (linked : func.IsLinked) (passed : Nat) :
    (FlowGraph.backward func.blocks).OnEveryWalk passed place ↔
      func.OnEveryWayOut passed place := by
  refine ⟨fun every exit places last path => ?_, fun every places walk => ?_⟩
  · exact every _ ((backward_walk_iff linked).mpr ⟨exit, last, path⟩)
  · obtain ⟨exit, last, path⟩ := (backward_walk_iff linked).mp walk
    exact every exit places last path

/-! ## Parents and paths -/

private theorem strictly_congr {first second : Nat → Nat → Prop}
    (same : ∀ passed, first passed place ↔ second passed place) (size a : Nat) :
    StrictlyDominates size first a place ↔ StrictlyDominates size second a place := by
  rw [StrictlyDominates, StrictlyDominates, same a]

private theorem immediately_congr {size : Nat} {first second : Nat → Nat → Prop}
    (same : ∀ passed, ∀ place < size, first passed place ↔ second passed place)
    (inside : place < size) (a : Nat) :
    ImmediatelyDominates size first a place ↔ ImmediatelyDominates size second a place := by
  have strict := strictly_congr (fun passed => same passed place inside) size
  unfold ImmediatelyDominates
  rw [strict a]
  refine and_congr_right fun closer => forall_congr' fun other => ?_
  rw [strict other, same other a closer.1]

/-- The parent of a place that control gets to. -/
theorem parent_forward (linked : func.IsLinked) (inside : place < func.blocks.length)
    (entered : func.IsEntered place) :
    (∀ nearest, (func.domTree .forward).parent? place = some nearest ↔
      ImmediatelyDominates func.blocks.length func.OnEveryWayIn nearest place) ∧
    ((∃ nearest, (func.domTree .forward).parent? place = some nearest) ↔
      ∃ other, StrictlyDominates func.blocks.length func.OnEveryWayIn other place) := by
  obtain ⟨places, path⟩ := entered
  have same : ∀ passed, ∀ place < func.blocks.length,
      (FlowGraph.forward func.blocks).OnEveryWalk passed place ↔ func.OnEveryWayIn passed place :=
    fun passed place inside => on_every_forward_walk_iff inside passed
  obtain ⟨parent, some⟩ := FlowGraph.parent_is_nearest (.forward func.blocks)
    (fun a b first second => (dominates_forward_iff linked first second).trans
      (same a b second).symm) inside (forward_walk inside path)
  refine ⟨fun nearest => (parent nearest).trans (immediately_congr same inside nearest),
    some.trans (exists_congr fun other => ?_)⟩
  exact strictly_congr (fun passed => same passed place inside) _ other

/-- The parent of a place that control gets out from. -/
theorem parent_backward (linked : func.IsLinked) (inside : place < func.blocks.length)
    (left : func.IsLeft place) :
    (∀ nearest, (func.domTree .backward).parent? place = some nearest ↔
      ImmediatelyDominates func.blocks.length func.OnEveryWayOut nearest place) ∧
    ((∃ nearest, (func.domTree .backward).parent? place = some nearest) ↔
      ∃ other, StrictlyDominates func.blocks.length func.OnEveryWayOut other place) := by
  obtain ⟨exit, places, last, path⟩ := left
  have same : ∀ passed, ∀ place < func.blocks.length,
      (FlowGraph.backward func.blocks).OnEveryWalk passed place ↔ func.OnEveryWayOut passed place :=
    fun passed place _ => on_every_backward_walk_iff linked passed
  obtain ⟨parent, some⟩ := FlowGraph.parent_is_nearest (.backward func.blocks)
    (fun a b first second => (dominates_backward_iff linked first second).trans
      (same a b second).symm) inside ((backward_walk_iff linked).mpr ⟨exit, last, path⟩)
  refine ⟨fun nearest => (parent nearest).trans (immediately_congr same inside nearest),
    some.trans (exists_congr fun other => ?_)⟩
  exact strictly_congr (fun passed => same passed place inside) _ other

/-- Of the places that control gets to, the entry alone is without parent. -/
theorem parent_forward_none_iff (linked : func.IsLinked) (inside : place < func.blocks.length)
    (entered : func.IsEntered place) :
    (func.domTree .forward).parent? place = none ↔ place = 0 := by
  rw [Option.eq_none_iff_forall_ne_some, ← not_exists, (parent_forward linked inside entered).2]
  constructor
  · intro alone
    by_contra other
    exact alone ⟨0, Nat.zero_lt_of_lt inside, Ne.symm other, fun _ path => path.source_mem⟩
  · rintro rfl ⟨other, -, different, passes⟩
    exact different (List.mem_singleton.mp (passes [0] .here))

end Func

end KernelGuard
