import KernelGuard.Proofs.LinkedFlow

/-! Dominance is about paths. A walk that never enters one place sees just the
places that some path avoids it on, so the places that stay unseen are those to
which every path leads through it. Walking backward the paths are those from a
place to a block without successors, since edges are known alike at both ends. -/
namespace KernelGuard

namespace FlowGraph

/-- A walk inside some places gets to a place from a frontier, never entering the
avoided one on its way. -/
inductive Reached (graph : FlowGraph) (avoided : Nat) (within frontier : List Nat) : Nat → Prop where
  | start (inside : place ∈ within) (member : place ∈ frontier) :
      Reached graph avoided within frontier place
  | onward (earlier : Reached graph avoided within frontier source) (inside : place ∈ within)
      (edge : place ∈ graph.next source) (other : place ≠ avoided) :
      Reached graph avoided within frontier place

variable {graph : FlowGraph} {avoided place seen : Nat} {within frontier : List Nat}

/-- Going on from a place that was met instead of meeting it again reaches nothing new. -/
private theorem reached_of_opened (inside : place ∈ within)
    (reached : graph.Reached avoided (within.erase place)
      (frontier ++ (graph.next place).filter (· ≠ avoided)) seen) :
    graph.Reached avoided within (place :: frontier) seen := by
  induction reached with
  | start left member =>
    have member' := List.mem_of_mem_erase left
    rcases List.mem_append.mp member with old | new
    · exact .start member' (List.mem_cons_of_mem _ old)
    · obtain ⟨edge, other⟩ := List.mem_filter.mp new
      exact .onward (.start inside List.mem_cons_self) member' edge (by simpa using other)
  | onward _ left edge other ih => exact .onward ih (List.mem_of_mem_erase left) edge other

/-- What is reached through a place is reached from where it leads to. -/
private theorem opened_of_reached (reached : graph.Reached avoided within (place :: frontier) seen)
    (different : seen ≠ place) :
    graph.Reached avoided (within.erase place)
      (frontier ++ (graph.next place).filter (· ≠ avoided)) seen := by
  induction reached with
  | start inside member =>
    exact .start ((List.mem_erase_of_ne different).mpr inside)
      (List.mem_append_left _ (List.mem_of_ne_of_mem different member))
  | @onward source _ earlier inside edge other ih =>
    have left := (List.mem_erase_of_ne different).mpr inside
    by_cases same : source = place
    · subst same
      exact .start left (List.mem_append_right _ (List.mem_filter.mpr ⟨edge, by simpa using other⟩))
    · exact .onward (ih same) left edge other

/-- A place outside the walk adds nothing to its frontier. -/
private theorem reached_without (outside : place ∉ within) :
    graph.Reached avoided within (place :: frontier) seen ↔
      graph.Reached avoided within frontier seen := by
  constructor <;> intro reached
  · induction reached with
    | start inside member =>
      refine .start inside (List.mem_of_ne_of_mem ?_ member)
      rintro rfl
      exact outside inside
    | onward _ inside edge other ih => exact .onward ih inside edge other
  · induction reached with
    | start inside member => exact .start inside (List.mem_cons_of_mem _ member)
    | onward _ inside edge other ih => exact .onward ih inside edge other

/-- A walk leaves unseen just the places that it cannot get to. -/
theorem mem_unreached_iff (distinct : within.Nodup) :
    seen ∈ graph.unreached avoided within frontier ↔
      seen ∈ within ∧ ¬graph.Reached avoided within frontier seen := by
  fun_induction unreached graph avoided within frontier with
  | case1 within =>
    have none' : ¬graph.Reached avoided within [] seen := by
      intro reached
      induction reached with
      | start _ member => cases member
      | onward _ _ _ _ ih => exact ih
    simp [none']
  | case2 within place frontier inside ih =>
    -- the recursion carries its successors together with their membership
    rw [List.unattach_filter (g := fun next => decide (next ≠ avoided)),
      List.unattach_attach] at ih
    · rw [ih (distinct.erase place), distinct.mem_erase_iff]
      constructor
      · rintro ⟨⟨different, member⟩, unreached⟩
        exact ⟨member, fun reached => unreached (opened_of_reached reached different)⟩
      · rintro ⟨member, unreached⟩
        refine ⟨⟨?_, member⟩, fun reached => unreached (reached_of_opened inside reached)⟩
        rintro rfl
        exact unreached (.start inside List.mem_cons_self)
    · exact fun _ _ => rfl
  | case3 within place frontier outside ih =>
    rw [ih distinct, reached_without outside]

/-- A place is dominated where no walk that avoids the other one gets to it. -/
theorem mem_dominated_iff :
    place ∈ graph.dominatedBy avoided ↔ place < graph.size ∧
      ¬graph.Reached avoided (List.range graph.size) (graph.roots.filter (· ≠ avoided)) place := by
  rw [dominatedBy, mem_unreached_iff List.nodup_range, List.mem_range]

end FlowGraph

theorem DomTree.dominates_ofGraph {graph : FlowGraph} (inside : a < graph.size) :
    (DomTree.ofGraph graph).dominates a b = true ↔ b ∈ graph.dominatedBy a := by
  simp [DomTree.dominates, DomTree.ofGraph, inside]

namespace Func

/-- Control may take some places one after another. -/
inductive Path (func : Func) : Nat → Nat → List Nat → Prop where
  | here : Path func place place [place]
  | step (edge : func.Follows source next) (rest : Path func next target places) :
      Path func source target (source :: places)

/-- Control goes nowhere from a place. -/
def IsExit (func : Func) (place : Nat) : Prop :=
  ∃ block, func.blocks[place]? = some block ∧ block.succ = []

/-- Every path from the entry to a place passes another one. -/
def OnEveryWayIn (func : Func) (passed target : Nat) : Prop :=
  ∀ places, func.Path 0 target places → passed ∈ places

/-- Every path from a place to a block without successors passes another one. -/
def OnEveryWayOut (func : Func) (passed source : Nat) : Prop :=
  ∀ exit places, func.IsExit exit → func.Path source exit places → passed ∈ places

variable {func : Func} {source target place passed : Nat}

theorem Path.source_mem (path : func.Path source target places) : source ∈ places := by
  cases path with
  | here => exact List.mem_singleton_self _
  | step => exact List.mem_cons_self

/-- A path goes on along an edge from its end. -/
theorem Path.extend (path : func.Path source target places) (edge : func.Follows target next) :
    func.Path source next (places ++ [next]) := by
  induction path with
  | here => exact .step edge .here
  | step first _ ih => exact .step first (ih edge)

theorem mem_forward_next :
    target ∈ (FlowGraph.forward func.blocks).next source ↔ func.Follows source target := by
  cases here : func.blocks[source]? <;> simp [FlowGraph.forward, Follows, here]

theorem mem_backward_next (linked : func.IsLinked) :
    source ∈ (FlowGraph.backward func.blocks).next target ↔ func.Follows source target := by
  rw [linked.mirrored]
  cases there : func.blocks[target]? <;> simp [FlowGraph.backward, there]

theorem mem_exits_iff : place ∈ func.exits ↔ func.IsExit place := by
  simp only [exits, FlowGraph.exits, List.mem_filter, List.mem_range, IsExit]
  by_cases inside : place < func.blocks.length <;> simp [inside]

/-- A forward walk can follow a path that avoids what it avoids. -/
private theorem reached_along {frontier : List Nat} (linked : func.IsLinked)
    (path : func.Path source target places) (avoids : passed ∉ places)
    (reached : (FlowGraph.forward func.blocks).Reached passed (List.range func.blocks.length)
      frontier source) :
    (FlowGraph.forward func.blocks).Reached passed (List.range func.blocks.length)
      frontier target := by
  induction path with
  | here => exact reached
  | step edge rest ih =>
    rw [List.mem_cons, not_or] at avoids
    refine ih avoids.2 (.onward reached (List.mem_range.mpr (linked.target_inside edge))
      (mem_forward_next.mpr edge) ?_)
    rintro rfl
    exact avoids.2 rest.source_mem

/-- A forward walk that avoids a place gets just where a path from the entry does. -/
private theorem reached_forward_iff (linked : func.IsLinked) (inside : target < func.blocks.length) :
    (FlowGraph.forward func.blocks).Reached passed (List.range func.blocks.length)
        ((FlowGraph.forward func.blocks).roots.filter (· ≠ passed)) target ↔
      ∃ places, func.Path 0 target places ∧ passed ∉ places := by
  have entry : (FlowGraph.forward func.blocks).roots = [0] := by
    simp [FlowGraph.forward, List.ne_nil_of_length_pos (Nat.zero_lt_of_lt inside)]
  rw [entry]
  constructor
  · intro reached
    clear inside
    induction reached with
    | start _ member =>
      simp only [List.mem_filter, List.mem_singleton, decide_eq_true_eq] at member
      obtain ⟨rfl, other⟩ := member
      exact ⟨[0], .here, by simpa using Ne.symm other⟩
    | onward _ _ edge other ih =>
      obtain ⟨places, path, avoids⟩ := ih
      exact ⟨_, path.extend (mem_forward_next.mp edge), by simp [avoids, Ne.symm other]⟩
  · rintro ⟨places, path, avoids⟩
    have other : 0 ≠ passed := by
      rintro rfl
      exact avoids path.source_mem
    exact reached_along linked path avoids
      (.start (List.mem_range.mpr (Nat.zero_lt_of_lt inside)) (by simp [other]))

/-- A backward walk that avoids a place gets just where a path to an exit begins. -/
private theorem reached_backward_iff (linked : func.IsLinked) :
    (FlowGraph.backward func.blocks).Reached passed (List.range func.blocks.length)
        ((FlowGraph.backward func.blocks).roots.filter (· ≠ passed)) source ↔
      ∃ exit places, func.IsExit exit ∧ func.Path source exit places ∧ passed ∉ places := by
  constructor
  · intro reached
    induction reached with
    | start _ member =>
      obtain ⟨exits, other⟩ := List.mem_filter.mp member
      exact ⟨_, _, mem_exits_iff.mp exits, .here, by simpa using Ne.symm (by simpa using other)⟩
    | onward _ _ edge other ih =>
      obtain ⟨exit, places, exits, path, avoids⟩ := ih
      exact ⟨exit, _, exits, .step ((mem_backward_next linked).mp edge) path, by
        simp [avoids, Ne.symm other]⟩
  · rintro ⟨exit, places, exits, path, avoids⟩
    induction path with
    | here =>
      obtain ⟨block, there, -⟩ := id exits
      refine .start (List.mem_range.mpr (List.getElem?_eq_some_iff.mp there).1)
        (List.mem_filter.mpr ⟨mem_exits_iff.mpr exits, ?_⟩)
      simpa using fun same => avoids (List.mem_singleton.mpr same.symm)
    | step edge rest ih =>
      rw [List.mem_cons, not_or] at avoids
      obtain ⟨block, here, -⟩ := id edge
      exact .onward (ih exits avoids.2)
        (List.mem_range.mpr (List.getElem?_eq_some_iff.mp here).1)
        ((mem_backward_next linked).mpr edge) (Ne.symm avoids.1)

/-- Walking forward, a place dominates those that every path from the entry reaches
through it. -/
theorem dominates_forward_iff (linked : func.IsLinked) (passing : passed < func.blocks.length)
    (inside : place < func.blocks.length) :
    (func.domTree .forward).dominates passed place = true ↔ func.OnEveryWayIn passed place := by
  rw [domTree, DomTree.dominates_ofGraph passing, FlowGraph.mem_dominated_iff]
  refine (and_iff_right inside).trans ((not_congr (reached_forward_iff linked inside)).trans ?_)
  simp only [not_exists, not_and, not_not, OnEveryWayIn]

/-- Walking backward, a place dominates those from which every path to an exit leads
through it. -/
theorem dominates_backward_iff (linked : func.IsLinked) (passing : passed < func.blocks.length)
    (inside : place < func.blocks.length) :
    (func.domTree .backward).dominates passed place = true ↔ func.OnEveryWayOut passed place := by
  rw [domTree, DomTree.dominates_ofGraph passing, FlowGraph.mem_dominated_iff]
  refine (and_iff_right inside).trans ((not_congr (reached_backward_iff linked)).trans ?_)
  simp only [not_exists, not_and, not_not, OnEveryWayOut]

/-- The trees of a linked function answer which places lie on every path: forward on
those from the entry, and backward on those to a block without successors. Where
there is no such path, every place lies on all of them. -/
theorem dominates_iff_on_every_path {function : Module.Function} {func : Func}
    (built : ofModule function = .ok func) {a b : Nat} (first : a < func.blocks.length)
    (second : b < func.blocks.length) :
    ((func.domTree .forward).dominates a b = true ↔ func.OnEveryWayIn a b) ∧
      ((func.domTree .backward).dominates a b = true ↔ func.OnEveryWayOut a b) :=
  have linked := linked_ofModule built
  ⟨dominates_forward_iff linked first second, dominates_backward_iff linked first second⟩

/-- A function with a loop in front of its exit, a way around the loop, and a block
that nothing leads to and that leads nowhere else. -/
def windingFunction : Module.Function where
  name := "winding"
  returnType := .void
  params := [.ofLocal "c" .i1]
  blocks := [
    { label := "entry", phis := [], instrs := [],
      terminator := .branch .i1 (.temp (.ofLocal "c" .i1)) "loop" "skip" },
    { label := "loop", phis := [], instrs := [.call none .void "work" []],
      terminator := .branch .i1 (.temp (.ofLocal "c" .i1)) "loop" "exit" },
    { label := "skip", phis := [], instrs := [], terminator := .jump "exit" },
    { label := "exit", phis := [], instrs := [], terminator := .ret none },
    { label := "lost", phis := [], instrs := [], terminator := .jump "lost" }]

/-- Every way out of the entry passes the exit and some avoid the loop; no way leads
to the lost block, nor out of it. -/
theorem winding_paths : ∃ func, ofModule windingFunction = .ok func ∧
    func.OnEveryWayOut 3 0 ∧ ¬func.OnEveryWayOut 1 0 ∧ func.OnEveryWayOut 1 4 ∧
    func.OnEveryWayIn 1 4 ∧ ¬func.OnEveryWayIn 1 3 := by
  obtain ⟨func, built, count, answers⟩ : ∃ func, ofModule windingFunction = .ok func ∧
      func.blocks.length = 5 ∧
      ((func.domTree .backward).dominates 3 0 = true ∧
        (func.domTree .backward).dominates 1 0 = false ∧
        (func.domTree .backward).dominates 1 4 = true ∧
        (func.domTree .forward).dominates 1 4 = true ∧
        (func.domTree .forward).dominates 1 3 = false) :=
    ⟨_, rfl, rfl, by cbv⟩
  have passes := fun {a b : Nat} (first : a < 5) (second : b < 5) =>
    dominates_iff_on_every_path built (count ▸ first) (count ▸ second)
  obtain ⟨exit, around, lost, unreached, skipped⟩ := answers
  refine ⟨func, built, (passes (by decide) (by decide)).2.mp exit, ?_,
    (passes (by decide) (by decide)).2.mp lost, (passes (by decide) (by decide)).1.mp unreached, ?_⟩
  · intro every
    simp [(passes (by decide) (by decide)).2.mpr every] at around
  · intro every
    simp [(passes (by decide) (by decide)).1.mpr every] at skipped

end Func

end KernelGuard
