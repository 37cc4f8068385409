import KernelGuard.Flow.Func
import Mathlib.Data.List.Nodup

/-! What linking makes of the blocks of a function. The edges are those that the
terminators ask for, seen alike from both of their ends, and since no two blocks
share a label, a label that a terminator names stands for one successor. -/
namespace KernelGuard

namespace Edge

variable {blocks : List Block} {block : Block} {label : Label} {place source target : Nat}

/-- The place of a label is that of a block with it. -/
theorem block_of_placeOf? (found : placeOf? blocks label = some place) :
    ∃ block, blocks[place]? = some block ∧ block.label = label := by
  obtain ⟨inside, labelled, -⟩ := List.findIdx?_eq_some_iff_getElem.mp found
  exact ⟨blocks[place], List.getElem?_eq_getElem inside, by simpa using labelled⟩

/-- Where labels are distinct, a block is at the place of its label. -/
theorem placeOf?_block (distinct : (blocks.map (·.label)).Nodup)
    (here : blocks[place]? = some block) : placeOf? blocks block.label = some place := by
  obtain ⟨inside, rfl⟩ := List.getElem?_eq_some_iff.mp here
  refine List.findIdx?_eq_some_iff_getElem.mpr ⟨inside, by simp, fun earlier before => ?_⟩
  have bound : earlier < blocks.length := Nat.lt_trans before inside
  have apart := List.pairwise_iff_getElem.mp (List.pairwise_map.mp distinct) earlier place bound
    inside before
  simpa using apart

/-- The place of a label depends on the labels alone. -/
theorem placeOf?_of_same_labels {others : List Block}
    (same : others.map (·.label) = blocks.map (·.label)) :
    placeOf? others label = placeOf? blocks label := by
  have place : ∀ list : List Block,
      placeOf? list label = (list.map (·.label)).findIdx? (· = label) := by
    intro list
    rw [List.findIdx?_map]
    rfl
  rw [place, place, same]

theorem mem_requests_iff :
    (source, label) ∈ requests blocks ↔
      ∃ block, blocks[source]? = some block ∧ label ∈ block.targets := by
  simp [requests, List.mem_zipIdx_iff_getElem?]

/-- Where every request finds its label, each is answered by one edge, in order. -/
private theorem resolve_complete {requests : List (Nat × Label)}
    (complete : (resolve blocks requests).2 = none) :
    requests.map (fun request => (placeOf? blocks request.2).map (Edge.mk request.1)) =
      (resolve blocks requests).1.map some := by
  induction requests with
  | nil => rfl
  | cons request rest ih =>
    obtain ⟨source, label⟩ := request
    cases found : placeOf? blocks label with
    | none => simp [resolve, found] at complete
    | some target =>
      simp only [resolve, found] at complete ⊢
      simp [found, ih complete]

/-- An edge goes to a block that the terminator of its source names. -/
theorem mem_resolved_iff (distinct : (blocks.map (·.label)).Nodup)
    (complete : (resolve blocks (requests blocks)).2 = none) :
    ⟨source, target⟩ ∈ (resolve blocks (requests blocks)).1 ↔
      ∃ block next, blocks[source]? = some block ∧ blocks[target]? = some next ∧
        next.label ∈ block.targets := by
  rw [← List.mem_map_of_injective (fun _ _ => Option.some.inj), ← resolve_complete complete,
    List.mem_map]
  constructor
  · rintro ⟨⟨start, label⟩, asked, answered⟩
    obtain ⟨found, place, same⟩ := Option.map_eq_some_iff.mp answered
    cases same
    obtain ⟨block, here, named⟩ := mem_requests_iff.mp asked
    obtain ⟨next, there, rfl⟩ := block_of_placeOf? place
    exact ⟨block, next, here, there, named⟩
  · rintro ⟨block, next, here, there, named⟩
    exact ⟨(source, next.label), mem_requests_iff.mpr ⟨block, here, named⟩,
      by simp [placeOf?_block distinct there]⟩

/-- Every label that a terminator names has a place. -/
theorem placeOf?_target (complete : (resolve blocks (requests blocks)).2 = none)
    (here : blocks[source]? = some block) (named : label ∈ block.targets) :
    ∃ target, placeOf? blocks label = some target := by
  have asked : (source, label) ∈ requests blocks := mem_requests_iff.mpr ⟨block, here, named⟩
  have answered := List.mem_map_of_mem
    (f := fun request => (placeOf? blocks request.2).map (Edge.mk request.1)) asked
  rw [resolve_complete complete, List.mem_map] at answered
  obtain ⟨edge, -, same⟩ := answered
  obtain ⟨target, place, -⟩ := Option.map_eq_some_iff.mp same.symm
  exact ⟨target, place⟩

/-- A block keeps everything but its edges. -/
theorem install_get (edges : List Edge) (blocks : List Block) (place : Nat) :
    (install edges blocks)[place]? = blocks[place]?.map fun block =>
      { block with
        succ := (edges.eraseDups.filter (·.source = place)).map (·.target)
        prev := (edges.eraseDups.filter (·.target = place)).map (·.source) } := by
  simp [install]

/-- The successors of a block are the ends of the edges that lead from it. -/
theorem mem_succ_iff {edges : List Edge} (here : (install edges blocks)[source]? = some block) :
    target ∈ block.succ ↔ ⟨source, target⟩ ∈ edges := by
  rw [install_get] at here
  obtain ⟨written, -, rfl⟩ := Option.map_eq_some_iff.mp here
  simp only [List.mem_map, List.mem_filter, List.mem_eraseDups, decide_eq_true_eq]
  constructor
  · rintro ⟨edge, ⟨inside, rfl⟩, rfl⟩
    exact inside
  · intro inside
    exact ⟨_, ⟨inside, rfl⟩, rfl⟩

/-- The predecessors of a block are the starts of the edges that lead to it. -/
theorem mem_prev_iff {edges : List Edge} (there : (install edges blocks)[target]? = some block) :
    source ∈ block.prev ↔ ⟨source, target⟩ ∈ edges := by
  rw [install_get] at there
  obtain ⟨written, -, rfl⟩ := Option.map_eq_some_iff.mp there
  simp only [List.mem_map, List.mem_filter, List.mem_eraseDups, decide_eq_true_eq]
  constructor
  · rintro ⟨edge, ⟨inside, rfl⟩, rfl⟩
    exact inside
  · intro inside
    exact ⟨_, ⟨inside, rfl⟩, rfl⟩

private theorem installed_inside {edges : List Edge} :
    place < blocks.length ↔ ∃ block, (install edges blocks)[place]? = some block := by
  rw [install_get]
  by_cases inside : place < blocks.length <;> simp [inside]

private theorem installed_successor {edges : List Edge} :
    (∃ block, (install edges blocks)[source]? = some block ∧ target ∈ block.succ) ↔
      source < blocks.length ∧ ⟨source, target⟩ ∈ edges := by
  rw [installed_inside, ← exists_and_right]
  exact exists_congr fun block => and_congr_right fun here => mem_succ_iff here

private theorem installed_predecessor {edges : List Edge} :
    (∃ block, (install edges blocks)[target]? = some block ∧ source ∈ block.prev) ↔
      target < blocks.length ∧ ⟨source, target⟩ ∈ edges := by
  rw [installed_inside, ← exists_and_right]
  exact exists_congr fun block => and_congr_right fun there => mem_prev_iff there

theorem install_labels (edges : List Edge) (blocks : List Block) :
    (install edges blocks).map (·.label) = blocks.map (·.label) := by
  refine List.ext_getElem? fun place => ?_
  rw [List.getElem?_map, install_get, List.getElem?_map, Option.map_map]
  rfl

end Edge

namespace Func

/-- Control may go from one place to another. -/
def Follows (func : Func) (source target : Nat) : Prop :=
  ∃ block, func.blocks[source]? = some block ∧ target ∈ block.succ

/-- The edges of a function are what its terminators ask for. -/
structure IsLinked (func : Func) : Prop where
  distinct : (func.blocks.map (·.label)).Nodup
  ended : ∀ block ∈ func.blocks, ∃ terminator, block.terminator = some terminator
  named : ∀ source target, func.Follows source target ↔
    ∃ block next, func.blocks[source]? = some block ∧ func.blocks[target]? = some next ∧
      next.label ∈ block.targets
  mirrored : ∀ source target, func.Follows source target ↔
    ∃ block, func.blocks[target]? = some block ∧ source ∈ block.prev
  found : ∀ block ∈ func.blocks, ∀ label ∈ block.targets,
    ∃ place, func.place? label = some place

theorem firstRepeat_none {seen labels : List Label}
    (unrepeated : firstRepeat seen labels = none) :
    labels.Nodup ∧ ∀ label ∈ labels, label ∉ seen := by
  induction labels generalizing seen with
  | nil => simp
  | cons label rest ih =>
    unfold firstRepeat at unrepeated
    split at unrepeated
    · cases unrepeated
    rename_i fresh
    obtain ⟨distinct, unseen⟩ := ih unrepeated
    refine ⟨List.nodup_cons.mpr ⟨fun later => unseen label later List.mem_cons_self, distinct⟩, ?_⟩
    exact List.forall_mem_cons.mpr ⟨fresh, fun other later known =>
      unseen other later (List.mem_cons_of_mem _ known)⟩

/-- A function can be linked where no label is repeated and every target is found. -/
theorem ofModule_parts {function : Module.Function} {func : Func}
    (built : ofModule function = .ok func) :
    (function.blocks.map (·.label)).Nodup ∧
      (Edge.rebuild (function.blocks.map blockOf)).2 = none ∧
      func = ⟨function.name, function.returnType, function.params,
        (Edge.rebuild (function.blocks.map blockOf)).1,
        namesOf function.params (function.blocks.map blockOf)⟩ := by
  unfold ofModule at built
  split at built
  · cases built
  rename_i unrepeated
  dsimp only at built
  split at built
  · cases built
  rename_i blocks rebuilt
  cases built
  rw [rebuilt]
  exact ⟨(firstRepeat_none unrepeated).1, rfl, rfl⟩

/-- Rebuilt edges are what the terminators ask for, if every target is found. -/
theorem linked_of_rebuilt {func : Func} {blocks : List Block}
    (rebuilt : func.blocks = (Edge.rebuild blocks).1) (complete : (Edge.rebuild blocks).2 = none)
    (distinct : (blocks.map (·.label)).Nodup)
    (ended : ∀ block ∈ blocks, ∃ terminator, block.terminator = some terminator) :
    func.IsLinked := by
  generalize resolved : (Edge.resolve blocks (Edge.requests blocks)).1 = edges
  have installed : func.blocks = Edge.install edges blocks := by rw [rebuilt, ← resolved]; rfl
  have edge : ∀ source target, ⟨source, target⟩ ∈ edges ↔ ∃ block next,
      blocks[source]? = some block ∧ blocks[target]? = some next ∧ next.label ∈ block.targets :=
    fun source target => resolved ▸ Edge.mem_resolved_iff distinct complete
  have inside : ∀ {source target}, ⟨source, target⟩ ∈ edges →
      source < blocks.length ∧ target < blocks.length := by
    intro source target member
    obtain ⟨block, next, here, there, -⟩ := (edge source target).mp member
    exact ⟨(List.getElem?_eq_some_iff.mp here).1, (List.getElem?_eq_some_iff.mp there).1⟩
  have follows : ∀ source target, func.Follows source target ↔ ⟨source, target⟩ ∈ edges := by
    intro source target
    rw [Follows, installed, Edge.installed_successor]
    exact and_iff_right_of_imp fun member => (inside member).1
  constructor
  case distinct => rwa [installed, Edge.install_labels]
  case ended =>
    intro block member
    obtain ⟨place, here⟩ := List.mem_iff_getElem?.mp member
    rw [installed, Edge.install_get] at here
    obtain ⟨written, there, rfl⟩ := Option.map_eq_some_iff.mp here
    exact ended written (List.mem_of_getElem? there)
  case named =>
    intro source target
    rw [follows, edge, installed, Edge.install_get, Edge.install_get]
    cases blocks[source]? <;> cases blocks[target]? <;> simp [Block.targets]
  case mirrored =>
    intro source target
    rw [follows, installed, Edge.installed_predecessor]
    exact (and_iff_right_of_imp fun member => (inside member).2).symm
  case found =>
    intro block member label named
    obtain ⟨place, here⟩ := List.mem_iff_getElem?.mp member
    rw [installed, Edge.install_get] at here
    obtain ⟨written, there, rfl⟩ := Option.map_eq_some_iff.mp here
    rw [place?, installed, Edge.placeOf?_of_same_labels (Edge.install_labels edges blocks)]
    exact Edge.placeOf?_target complete there named

/-- A function linked from its written form has the edges that it asks for. -/
theorem linked_ofModule {function : Module.Function} {func : Func}
    (built : ofModule function = .ok func) : func.IsLinked := by
  obtain ⟨unrepeated, complete, rfl⟩ := ofModule_parts built
  refine linked_of_rebuilt rfl complete (by rwa [List.map_map]) ?_
  intro block member
  obtain ⟨written, -, rfl⟩ := List.mem_map.mp member
  exact ⟨written.terminator, rfl⟩

@[simp] theorem labelAt_eq {func : Func} {block : Block} (here : func.blocks[place]? = some block) :
    func.labelAt place = block.label := by
  simp [labelAt, here]

namespace IsLinked

variable {func : Func} {source target : Nat} {block : Block}

/-- Control stays inside the function. -/
theorem target_inside (linked : func.IsLinked) (edge : func.Follows source target) :
    target < func.blocks.length := by
  obtain ⟨-, next, -, there, -⟩ := (linked.named source target).mp edge
  exact (List.getElem?_eq_some_iff.mp there).1

/-- A block is at the place of its label. -/
theorem placeOf?_block (linked : func.IsLinked) (here : func.blocks[place]? = some block) :
    func.place? block.label = some place :=
  Edge.placeOf?_block linked.distinct here

/-- Places in the function have different labels. -/
theorem eq_of_labelAt_eq (linked : func.IsLinked) (first : source < func.blocks.length)
    (second : target < func.blocks.length) (same : func.labelAt source = func.labelAt target) :
    source = target := by
  have here : func.blocks[source]? = some func.blocks[source] := List.getElem?_eq_getElem first
  have there : func.blocks[target]? = some func.blocks[target] := List.getElem?_eq_getElem second
  rw [labelAt_eq here, labelAt_eq there] at same
  have found := linked.placeOf?_block here
  rw [same, linked.placeOf?_block there] at found
  exact (Option.some.inj found).symm

/-- A block is the one that its label leads to. -/
theorem find_block (linked : func.IsLinked) (member : block ∈ func.blocks) :
    func.blocks.find? (·.label = block.label) = some block := by
  obtain ⟨place, here⟩ := List.mem_iff_getElem?.mp member
  have found : func.blocks.findIdx? (·.label = block.label) = some place :=
    linked.placeOf?_block here
  rw [List.find?_eq_bind_findIdx?_getElem?, found, Option.bind_some, here]

/-- A label that a terminator names is that of one successor. -/
theorem successor_of_target (linked : func.IsLinked) (here : func.blocks[source]? = some block)
    (named : label ∈ block.targets) :
    ∃ target, func.place? label = some target ∧ func.Follows source target := by
  obtain ⟨target, place⟩ := linked.found block (List.mem_of_getElem? here) label named
  obtain ⟨next, there, rfl⟩ := Edge.block_of_placeOf? place
  exact ⟨target, place, (linked.named source target).mpr ⟨block, next, here, there, named⟩⟩

end IsLinked

end Func

end KernelGuard
