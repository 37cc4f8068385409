import KernelGuard.Proofs.LinkedFlow
import Mathlib.Data.List.Forall2
import Mathlib.Data.List.TakeWhile

/-! Edges as both of their ends hold them. Whatever edges blocks had, rebuilding looks at the
terminators alone: successors stand in operand order and predecessors in block order, none of
them twice, and an edge is known at both of its ends or at neither, also where a label without
a block ends the linking. -/
namespace KernelGuard

/-! ## The first of each -/

private theorem eraseDups_induction {α : Type} [BEq α] {motive : List α → Prop} (nil : motive [])
    (cons : ∀ a list, motive (list.filter fun b => !b == a) → motive (a :: list))
    (list : List α) : motive list := by
  induction size : list.length using Nat.strongRecOn generalizing list with
  | ind size ih =>
    cases list with
    | nil => exact nil
    | cons a list =>
      refine cons a list (ih _ ?_ _ rfl)
      have fewer := List.length_filter_le (fun b => !b == a) list
      simp only [List.length_cons] at size
      omega

private theorem eraseDups_sublist {α : Type} [BEq α] (list : List α) : list.eraseDups.Sublist list := by
  induction list using eraseDups_induction with
  | nil => exact .refl _
  | cons a list ih =>
    rw [List.eraseDups_cons]
    exact (ih.trans List.filter_sublist).cons_cons a

section
variable {α : Type} [BEq α] [LawfulBEq α]

private theorem nodup_eraseDups (list : List α) : list.eraseDups.Nodup := by
  induction list using eraseDups_induction with
  | nil => exact List.nodup_nil
  | cons a list ih =>
    rw [List.eraseDups_cons]
    refine List.nodup_cons.mpr ⟨fun again => ?_, ih⟩
    simpa using (List.mem_filter.mp (List.mem_eraseDups.mp again)).2

private theorem filter_eraseDups (p : α → Bool) (list : List α) :
    list.eraseDups.filter p = (list.filter p).eraseDups := by
  induction list using eraseDups_induction with
  | nil => rfl
  | cons a list ih =>
    rw [List.eraseDups_cons]
    by_cases chosen : p a = true
    · rw [List.filter_cons_of_pos chosen, List.filter_cons_of_pos chosen, List.eraseDups_cons, ih,
        List.filter_comm]
    · have absent : (list.filter p).filter (fun b => !b == a) = list.filter p := by
        refine List.filter_eq_self.mpr fun b member => ?_
        have other : b ≠ a := by
          rintro rfl
          exact chosen (List.mem_filter.mp member).2
        simpa using other
      rw [List.filter_cons_of_neg chosen, List.filter_cons_of_neg chosen, ih, List.filter_comm,
        absent]

private theorem eraseDups_map {β : Type} [BEq β] [LawfulBEq β] {f : α → β}
    (injective : Function.Injective f) (list : List α) :
    (list.map f).eraseDups = list.eraseDups.map f := by
  induction list using eraseDups_induction with
  | nil => rfl
  | cons a list ih =>
    have others : (list.map f).filter (fun b => !b == f a) =
        (list.filter fun b => !b == a).map f := by
      rw [List.filter_map]
      congr 2
      funext b
      by_cases same : b = a <;> simp [same, injective.eq_iff]
    rw [List.map_cons, List.eraseDups_cons, List.eraseDups_cons, List.map_cons, others, ih]

end

namespace Edge

variable {blocks : List Block} {edges : List Edge} {place source target : Nat}

/-! ## Requests and their answers -/

/-- The edge that a request asks for, if its label has a block. -/
def answer? (blocks : List Block) (request : Nat × Label) : Option Edge :=
  (placeOf? blocks request.2).map (Edge.mk request.1)

/-- Requests are answered in order, up to the first label without a block. -/
theorem resolve_eq (blocks : List Block) (requests : List (Nat × Label)) :
    resolve blocks requests =
      ((requests.takeWhile fun request => (placeOf? blocks request.2).isSome).filterMap
          (answer? blocks),
        (requests.map (·.2)).find? fun label => (placeOf? blocks label).isNone) := by
  induction requests with
  | nil => rfl
  | cons request rest ih =>
    obtain ⟨source, label⟩ := request
    cases found : placeOf? blocks label with
    | none => simp [resolve, found]
    | some target => simp [resolve, found, ih, answer?]

/-- Whether a label has a place is a matter of the labels. -/
theorem placeOf?_isNone_iff {label : Label} :
    (placeOf? blocks label).isNone = true ↔ label ∉ blocks.map (·.label) := by
  simp [placeOf?, List.findIdx?_isNone]

private theorem requests_ordered (blocks : List Block) :
    (requests blocks).Pairwise fun first second => first.1 ≤ second.1 := by
  have places : blocks.zipIdx.Pairwise fun first second => first.2 < second.2 := by
    rw [← List.pairwise_map (f := Prod.snd), List.zipIdx_map_snd]
    exact List.pairwise_lt_range'
  refine List.pairwise_flatMap.mpr ⟨fun found _ => ?_, places.imp fun before => ?_⟩
  · exact List.pairwise_map.mpr (List.pairwise_of_forall fun _ _ => Nat.le_refl _)
  · rintro _ first _ second
    obtain ⟨_, _, rfl⟩ := List.mem_map.mp first
    obtain ⟨_, _, rfl⟩ := List.mem_map.mp second
    exact Nat.le_of_lt before

/-- Edges come in the order of the blocks that they lead from. -/
theorem resolved_ordered (blocks : List Block) :
    (resolve blocks (requests blocks)).1.Pairwise fun first second =>
      first.source ≤ second.source := by
  rw [resolve_eq]
  refine ((requests_ordered blocks).sublist (List.takeWhile_sublist _)).filterMap _ ?_
  rintro first second before edge answered other found
  obtain ⟨_, _, rfl⟩ := Option.map_eq_some_iff.mp answered
  obtain ⟨_, _, rfl⟩ := Option.map_eq_some_iff.mp found
  exact before

/-- Requests of blocks that stand elsewhere are no requests of a place. -/
private theorem requests_elsewhere {list : List Block} {start : Nat}
    (elsewhere : place < start ∨ start + list.length ≤ place) :
    ((list.zipIdx start).flatMap fun (block, place) => block.targets.map (place, ·)).filter
      (·.1 = place) = [] := by
  refine List.filter_eq_nil_iff.mpr fun request asked => ?_
  obtain ⟨⟨block, found⟩, listed, named⟩ := List.mem_flatMap.mp asked
  obtain ⟨label, -, rfl⟩ := List.mem_map.mp named
  have between := List.mem_zipIdx listed
  simp only [decide_eq_true_eq]
  omega

/-- The requests of a block are the targets of its terminator. -/
private theorem requests_of_place {block : Block} (written : blocks[place]? = some block) :
    (requests blocks).filter (·.1 = place) = block.targets.map (place, ·) := by
  obtain ⟨inside, rfl⟩ := List.getElem?_eq_some_iff.mp written
  have front : (blocks.take place).length = place := List.length_take_of_le (Nat.le_of_lt inside)
  have own : (blocks[place].targets.map (place, ·)).filter (·.1 = place) =
      blocks[place].targets.map (place, ·) := by
    refine List.filter_eq_self.mpr fun request asked => ?_
    obtain ⟨label, -, rfl⟩ := List.mem_map.mp asked
    simp
  have split : blocks.zipIdx = (blocks.take place).zipIdx ++
      (blocks[place], place) :: (blocks.drop (place + 1)).zipIdx (place + 1) := by
    conv_lhs => rw [← List.take_append_drop place blocks, List.drop_eq_getElem_cons inside]
    rw [List.zipIdx_append, front, Nat.zero_add, List.zipIdx_cons]
  rw [requests, split, List.flatMap_append, List.filter_append, List.flatMap_cons,
    List.filter_append, requests_elsewhere (.inr (by omega)), requests_elsewhere (.inl (by omega)),
    own, List.nil_append, List.append_nil]

/-! ## Successors and predecessors -/

section
variable {block : Block}

theorem nodup_succ (here : (install edges blocks)[source]? = some block) : block.succ.Nodup := by
  rw [install_get] at here
  obtain ⟨written, -, rfl⟩ := Option.map_eq_some_iff.mp here
  refine ((nodup_eraseDups edges).filter _).map_on fun first listed second found same => ?_
  have begins := (List.mem_filter.mp listed).2
  have starts := (List.mem_filter.mp found).2
  simp only [decide_eq_true_eq] at begins starts
  cases first
  cases second
  simp_all

/-- Predecessors stand in the order in which their edges were asked for. -/
theorem ascending_prev (ordered : edges.Pairwise fun first second => first.source ≤ second.source)
    (there : (install edges blocks)[target]? = some block) : block.prev.Pairwise (· < ·) := by
  rw [install_get] at there
  obtain ⟨written, -, rfl⟩ := Option.map_eq_some_iff.mp there
  have apart : edges.eraseDups.Pairwise fun first second =>
      first.source ≤ second.source ∧ first ≠ second :=
    List.pairwise_and_iff.mpr ⟨ordered.sublist (eraseDups_sublist edges), nodup_eraseDups edges⟩
  rw [List.pairwise_map, List.pairwise_filter]
  refine apart.imp fun {first second} ⟨before, different⟩ ends finishes => ?_
  simp only [decide_eq_true_eq] at ends finishes
  refine Nat.lt_of_le_of_ne before fun same => different ?_
  cases first
  cases second
  simp_all

end

/-! ## Rebuilding -/

/-- What linking makes of a block when every target has a place: its successors are the blocks
that its terminator names, in operand order and once each, and its predecessors are the blocks
that name it, in block order and once each. -/
structure IsMirrored (blocks : List Block) (written linked : Block) : Prop where
  placed : ∀ label ∈ written.targets, ∃ target, placeOf? blocks label = some target
  successors : linked.succ = (written.targets.filterMap (placeOf? blocks)).eraseDups
  ascending : linked.prev.Pairwise (· < ·)
  predecessors : ∀ source, source ∈ linked.prev ↔
    ∃ other, blocks[source]? = some other ∧ written.label ∈ other.targets

/-- The successors of a block are the places of its targets. -/
private theorem succ_of_resolved {written linked : Block}
    (complete : (resolve blocks (requests blocks)).2 = none)
    (here : blocks[place]? = some written)
    (installed : (install (resolve blocks (requests blocks)).1 blocks)[place]? = some linked) :
    linked.succ = (written.targets.filterMap (placeOf? blocks)).eraseDups := by
  have all : (requests blocks).takeWhile (fun request => (placeOf? blocks request.2).isSome) =
      requests blocks := by
    refine List.takeWhile_eq_self_iff.mpr fun (source, label) asked => ?_
    obtain ⟨block, there, named⟩ := mem_requests_iff.mp asked
    obtain ⟨target, found⟩ := placeOf?_target complete there named
    simp [found]
  have own : (resolve blocks (requests blocks)).1.filter (·.source = place) =
      (written.targets.filterMap (placeOf? blocks)).map (Edge.mk place) := by
    calc (resolve blocks (requests blocks)).1.filter (·.source = place)
        = ((requests blocks).filterMap (answer? blocks)).filter (·.source = place) := by
          rw [resolve_eq, all]
      _ = ((requests blocks).filter (·.1 = place)).filterMap (answer? blocks) := by
          rw [List.filter_filterMap, List.filterMap_filter]
          refine List.filterMap_congr fun (source, label) _ => ?_
          cases found : placeOf? blocks label <;> simp [answer?, found, Option.filter]
      _ = (written.targets.filterMap (placeOf? blocks)).map (Edge.mk place) := by
          rw [requests_of_place here, List.filterMap_map, List.map_filterMap]
          rfl
  rw [install_get, here, Option.map_some, Option.some.injEq] at installed
  have injective : Function.Injective (Edge.mk place) := fun _ _ same => (Edge.mk.inj same).2
  rw [← installed]
  dsimp only
  rw [filter_eraseDups, own, eraseDups_map injective, List.map_map]
  exact List.map_id _

private theorem requests_installed (edges : List Edge) (blocks : List Block) :
    requests (install edges blocks) = requests blocks := by
  have asked : ∀ list : List Block, requests list =
      (list.map (·.targets)).zipIdx.flatMap fun (targets, place) => targets.map (place, ·) := by
    intro list
    rw [List.zipIdx_map, List.flatMap_map]
    rfl
  have targets : (install edges blocks).map (·.targets) = blocks.map (·.targets) := by
    refine List.ext_getElem? fun place => ?_
    rw [List.getElem?_map, install_get, List.getElem?_map, Option.map_map]
    rfl
  rw [asked, asked, targets]

private theorem install_twice (edges others : List Edge) (blocks : List Block) :
    install edges (install others blocks) = install edges blocks := by
  refine List.ext_getElem? fun place => ?_
  rw [install_get, install_get, install_get, Option.map_map]
  rfl

/-- Linking leaves terminators and labels alone, so linking again finds the same edges. -/
private theorem rebuild_twice (blocks : List Block) :
    rebuild (rebuild blocks).1 = rebuild blocks := by
  have places : placeOf? (rebuild blocks).1 = placeOf? blocks :=
    funext fun _ => placeOf?_of_same_labels (install_labels _ blocks)
  have answers : answer? (rebuild blocks).1 = answer? blocks := by
    funext request
    rw [answer?, answer?, places]
  have resolved : resolve (rebuild blocks).1 (requests (rebuild blocks).1) =
      resolve blocks (requests blocks) := by
    rw [show requests (rebuild blocks).1 = requests blocks from requests_installed _ blocks,
      resolve_eq, resolve_eq, places, answers]
  calc rebuild (rebuild blocks).1
      = (install (resolve blocks (requests blocks)).1 (rebuild blocks).1,
          (resolve blocks (requests blocks)).2) := by rw [← resolved]; rfl
    _ = (install (resolve blocks (requests blocks)).1 blocks,
          (resolve blocks (requests blocks)).2) :=
        congrArg (·, _) (install_twice _ _ blocks)
    _ = rebuild blocks := rfl

/-- The label that ends the linking is the first target without a block. -/
private theorem missing_eq (blocks : List Block) :
    (rebuild blocks).2 =
      (blocks.flatMap (·.targets)).find? fun label => label ∉ blocks.map (·.label) := by
  have named : (requests blocks).map (·.2) = blocks.flatMap (·.targets) := by
    rw [requests, List.map_flatMap]
    conv_rhs => rw [← List.zipIdx_map_fst 0 blocks, List.flatMap_map]
    simp only [List.map_map, Function.comp_def, List.map_id']
  have absent : (fun label => (placeOf? blocks label).isNone) =
      fun label => decide (label ∉ blocks.map (·.label)) := by
    funext label
    exact Bool.eq_iff_iff.mpr (placeOf?_isNone_iff.trans decide_eq_true_iff.symm)
  rw [← named, ← absent, show (rebuild blocks).2 = (resolve blocks (requests blocks)).2 from rfl,
    resolve_eq]

/-- Rebuilt edges mirror the terminators, whatever edges there were. The first target without a
block is reported; without one, every block has the edges that the terminators ask for. Linking
again changes nothing, and in either outcome the two ends of an edge agree and no block has an
edge twice. -/
theorem edges_mirror_terminators (distinct : (blocks.map (·.label)).Nodup) :
    (rebuild blocks).1.map Block.unlinked = blocks.map Block.unlinked ∧
    (rebuild blocks).2 =
      ((blocks.flatMap (·.targets)).find? fun label => label ∉ blocks.map (·.label)) ∧
    ((rebuild blocks).2 = none →
      List.Forall₂ (IsMirrored blocks) blocks (rebuild blocks).1) ∧
    rebuild (rebuild blocks).1 = rebuild blocks ∧
    (∀ source target (here there : Block), (rebuild blocks).1[source]? = some here →
      (rebuild blocks).1[target]? = some there → (target ∈ here.succ ↔ source ∈ there.prev)) ∧
    ∀ block ∈ (rebuild blocks).1, block.succ.Nodup ∧ block.prev.Nodup := by
  refine ⟨?kept, missing_eq blocks, fun complete => ?mirrored, rebuild_twice blocks,
    fun source target here there first second => ?agree, fun block member => ?once⟩
  case kept =>
    refine List.ext_getElem? fun place => ?_
    rw [List.getElem?_map, List.getElem?_map, show (rebuild blocks).1[place]? = _ from
      install_get _ blocks place, Option.map_map]
    rfl
  case mirrored =>
    refine List.forall₂_iff_get.mpr ⟨by simp [rebuild, install], fun place inside linked => ?_⟩
    have here : blocks[place]? = some blocks[place] := List.getElem?_eq_getElem inside
    have installed : (rebuild blocks).1[place]? = some (rebuild blocks).1[place] :=
      List.getElem?_eq_getElem linked
    refine ⟨fun label => placeOf?_target complete here, succ_of_resolved complete here installed,
      ascending_prev (resolved_ordered blocks) installed, fun source => ?_⟩
    rw [List.get_eq_getElem, List.get_eq_getElem]
    rw [mem_prev_iff installed, mem_resolved_iff distinct complete]
    constructor
    · rintro ⟨other, next, there, same, named⟩
      cases here.symm.trans same
      exact ⟨other, there, named⟩
    · rintro ⟨other, there, named⟩
      exact ⟨other, _, there, here, named⟩
  case agree => exact (mem_succ_iff first).trans (mem_prev_iff second).symm
  case once =>
    obtain ⟨place, here⟩ := List.mem_iff_getElem?.mp member
    exact ⟨nodup_succ here, (ascending_prev (resolved_ordered blocks) here).imp Nat.ne_of_lt⟩

/-- A block with edges of its own that its terminator never asked for. -/
private def stray (label : Label) (terminator : Option Instr) : Block where
  label := label
  phis := []
  instrs := []
  terminator := terminator
  prev := [0, 7]
  succ := [2]

/-- A branch with one target twice, a loop on itself, and a block that is being edited. -/
def strayBlocks : List Block := [
  stray "entry" (some (.branch .i1 (.bool true) "loop" "loop")),
  stray "loop" (some (.branch .i1 (.bool true) "exit" "loop")),
  stray "exit" none]

/-- The stray edges are gone, and the target that is named twice has one edge. -/
theorem stray_edges_mirrored : (strayBlocks.map (·.label)).Nodup ∧
    List.Forall₂ (IsMirrored strayBlocks) strayBlocks (rebuild strayBlocks).1 ∧
    (rebuild strayBlocks).1.map (fun block => (block.prev, block.succ)) =
      [([], [1]), ([0, 1], [2, 1]), ([1], [])] := by
  have distinct : (strayBlocks.map (·.label)).Nodup := by decide
  obtain ⟨-, -, mirrored, -⟩ := edges_mirror_terminators distinct
  exact ⟨distinct, mirrored rfl, by decide⟩

end Edge

end KernelGuard
