import KernelGuard.Proofs.FirstFault
import KernelGuard.Proofs.ImmediateDominance

/-! The order of the blocks behind the entry does not matter for dominance. Functions whose
blocks have the same labels and targets have the same paths, read as labels; so what lies on
every path, and what does so nearest by, has the same label in both. -/
namespace KernelGuard.Func

variable {func other : Func} {function : Module.Function}

/-! ## Labels and targets -/

/-- The block of one label may go to the block of another. -/
def Names (func : Func) (label target : Label) : Prop :=
  ∃ block ∈ func.blocks, block.label = label ∧ target ∈ block.targets

/-- Two linked functions have the same entry and blocks with the same labels and targets, in
whatever order. -/
structure SameFlow (func other : Func) : Prop where
  linked : func.IsLinked
  linked' : other.IsLinked
  entry : other.labelAt 0 = func.labelAt 0
  labels : ∀ label, label ∈ other.blocks.map (·.label) ↔ label ∈ func.blocks.map (·.label)
  names : ∀ label target, other.Names label target ↔ func.Names label target

theorem SameFlow.symm (same : SameFlow func other) : SameFlow other func :=
  ⟨same.linked', same.linked, same.entry.symm, fun label => (same.labels label).symm,
    fun label target => (same.names label target).symm⟩

/-- Linking keeps the labels and the targets of all blocks, in order. -/
private theorem outline_ofModule (built : ofModule function = .ok func) :
    func.blocks.map (fun block => (block.label, block.targets)) =
      function.blocks.map fun block => (block.label, block.terminator.targets) := by
  obtain ⟨-, -, rfl⟩ := ofModule_parts built
  refine List.ext_getElem? fun place => ?_
  rw [List.getElem?_map, List.getElem?_map]
  change (Edge.install _ _)[place]?.map _ = _
  rw [Edge.install_get, List.getElem?_map, Option.map_map, Option.map_map]
  rfl

private theorem names_ofModule (built : ofModule function = .ok func) (label target : Label) :
    func.Names label target ↔
      ∃ block ∈ function.blocks, block.label = label ∧ target ∈ block.terminator.targets := by
  have named : func.Names label target ↔
      ∃ pair ∈ func.blocks.map (fun block => (block.label, block.targets)),
        pair.1 = label ∧ target ∈ pair.2 := by
    simp [Names]
  rw [named, outline_ofModule built]
  simp

private theorem labels_ofModule (built : ofModule function = .ok func) :
    func.blocks.map (·.label) = function.blocks.map (·.label) := by
  simpa [List.map_map, Function.comp_def] using
    congrArg (List.map Prod.fst) (outline_ofModule built)

private theorem label_of_entry (func : Func) :
    func.labelAt 0 = ((func.blocks.map (·.label)).head?).getD "" := by
  rw [labelAt, List.head?_eq_getElem?, List.getElem?_map]

/-- With the blocks behind the entry in another order a function can be linked as well. -/
theorem reordered_ofModule {entry : Module.Block} {rest reordered : List Module.Block}
    (built : ofModule function = .ok func) (first : function.blocks = entry :: rest)
    (order : reordered.Perm rest) :
    ∃ other, ofModule { function with blocks := entry :: reordered } = .ok other ∧
      SameFlow func other := by
  have blocks : (entry :: reordered).Perm function.blocks := first ▸ order.cons entry
  cases linked : ofModule { function with blocks := entry :: reordered } with
  | ok other =>
    refine ⟨other, rfl, linked_ofModule built, linked_ofModule linked, ?_, fun label => ?_,
      fun label target => ?_⟩
    · rw [label_of_entry, label_of_entry, labels_ofModule linked, labels_ofModule built, first]
      rfl
    · rw [labels_ofModule linked, labels_ofModule built]
      exact (blocks.map _).mem_iff
    · rw [names_ofModule linked, names_ofModule built]
      exact exists_congr fun block => and_congr_left' blocks.mem_iff
  | error fault =>
    have labels := (blocks.map (·.label)).nodup_iff.mpr (ofModule_parts built).1
    cases ofModule_eq_error_iff.mp linked with
    | repeated written distinct again =>
      have apart : (entry :: reordered).map (·.label) = _ := written
      rw [apart] at labels
      exact absurd rfl ((List.nodup_append.mp labels).2.2 _ again _ List.mem_cons_self)
    | @missing front label back distinct written found unknown =>
      have asked : label ∈ (entry :: reordered).flatMap (·.terminator.targets) := by
        have targets : (entry :: reordered).flatMap (·.terminator.targets) = _ := written
        simp [targets]
      obtain ⟨block, member, named⟩ := List.mem_flatMap.mp asked
      obtain ⟨source, inside, -, aimed⟩ := (names_ofModule built block.label label).mpr
        ⟨block, blocks.mem_iff.mp member, rfl, named⟩
      obtain ⟨place, at'⟩ := (linked_ofModule built).found source inside label aimed
      obtain ⟨target, there, rfl⟩ := Edge.block_of_placeOf? at'
      have known := List.mem_map_of_mem (f := (·.label)) (List.mem_of_getElem? there)
      rw [labels_ofModule built] at known
      exact absurd ((blocks.map _).mem_iff.mpr known) unknown

/-! ## Places of one label -/

/-- Places of blocks with one label. -/
structure Twins (func other : Func) (here there : Nat) : Prop where
  here_inside : here < func.blocks.length
  there_inside : there < other.blocks.length
  label : other.labelAt there = func.labelAt here

variable {here there source target source' target' passed passed' place place' : Nat}
  {places : List Nat}

theorem Twins.symm (twins : Twins func other here there) : Twins other func there here :=
  ⟨twins.there_inside, twins.here_inside, twins.label.symm⟩

/-- A place has one twin at most. -/
theorem Twins.unique (linked : other.IsLinked) (first : Twins func other here there)
    (second : Twins func other here place) : there = place :=
  linked.eq_of_labelAt_eq first.there_inside second.there_inside
    (first.label.trans second.label.symm)

private theorem exists_twin (same : SameFlow func other) (inside : here < func.blocks.length) :
    ∃ there, Twins func other here there := by
  have found : func.blocks[here]? = some func.blocks[here] := List.getElem?_eq_getElem inside
  have listed : func.blocks[here].label ∈ func.blocks.map (·.label) :=
    List.mem_map_of_mem (List.getElem_mem inside)
  obtain ⟨block, member, labelled⟩ := List.mem_map.mp ((same.labels _).mpr listed)
  obtain ⟨there, at'⟩ := List.mem_iff_getElem?.mp member
  exact ⟨there, inside, (List.getElem?_eq_some_iff.mp at').1, by
    rw [labelAt_eq at', labelAt_eq found, labelled]⟩

private theorem entry_twins (same : SameFlow func other) (inside : here < func.blocks.length)
    (inside' : there < other.blocks.length) : Twins func other 0 0 :=
  ⟨Nat.zero_lt_of_lt inside, Nat.zero_lt_of_lt inside', same.entry⟩

/-- Control goes where the label of the one place names that of the other. -/
private theorem follows_iff_names (linked : func.IsLinked) (first : source < func.blocks.length)
    (second : target < func.blocks.length) :
    func.Follows source target ↔ func.Names (func.labelAt source) (func.labelAt target) := by
  rw [linked.named]
  constructor
  · rintro ⟨block, next, here, there, named⟩
    rw [labelAt_eq here, labelAt_eq there]
    exact ⟨block, List.mem_of_getElem? here, rfl, named⟩
  · rintro ⟨block, member, labelled, named⟩
    obtain ⟨place, here⟩ := List.mem_iff_getElem?.mp member
    have there : func.blocks[target]? = some func.blocks[target] := List.getElem?_eq_getElem second
    obtain rfl : place = source := linked.eq_of_labelAt_eq
      (List.getElem?_eq_some_iff.mp here).1 first ((labelAt_eq here).trans labelled)
    exact ⟨block, _, here, there, labelAt_eq there ▸ named⟩

private theorem follows_twin (same : SameFlow func other)
    (start : Twins func other source source')
    (next : Twins func other target target') (edge : func.Follows source target) :
    other.Follows source' target' := by
  rw [follows_iff_names same.linked' start.there_inside next.there_inside, start.label, next.label,
    same.names]
  exact (follows_iff_names same.linked start.here_inside next.here_inside).mp edge

/-! ## Paths -/

/-- A path leads through twins in the other function. -/
private theorem path_twin (same : SameFlow func other)
    (path : func.Path source target places)
    (start : Twins func other source source') :
    ∃ target' places', Twins func other target target' ∧ other.Path source' target' places' ∧
      ∀ there ∈ places', ∃ here ∈ places, Twins func other here there := by
  induction path generalizing source' with
  | here =>
    exact ⟨source', [source'], start, .here, by
      simpa using start⟩
  | step edge rest ih =>
    obtain ⟨next', next⟩ := exists_twin same (same.linked.target_inside edge)
    obtain ⟨target', places', ends, path', through⟩ := ih next
    refine ⟨target', source' :: places', ends,
      .step (follows_twin same start next edge) path', ?_⟩
    refine List.forall_mem_cons.mpr ⟨⟨_, List.mem_cons_self, start⟩, fun there member => ?_⟩
    obtain ⟨here, inside, twins⟩ := through there member
    exact ⟨here, List.mem_cons_of_mem _ inside, twins⟩

private theorem exit_twin (same : SameFlow func other)
    (twins : Twins func other here there) (last : func.IsExit here) :
    other.IsExit there := by
  obtain ⟨block, found, done⟩ := last
  have inside := twins.there_inside
  have found' : other.blocks[there]? = some other.blocks[there] :=
    List.getElem?_eq_getElem inside
  refine ⟨_, found', List.eq_nil_iff_forall_not_mem.mpr fun next' member => ?_⟩
  have edge' : other.Follows there next' := ⟨_, found', member⟩
  obtain ⟨next, next_twins⟩ := exists_twin same.symm (same.linked'.target_inside edge')
  obtain ⟨found_block, at', listed⟩ :=
    follows_twin same.symm twins.symm next_twins edge'
  rw [found] at at'
  cases at'
  simp [done] at listed

private theorem onEveryWayIn_twin (same : SameFlow func other)
    (first : Twins func other passed passed') (second : Twins func other place place')
    (every : func.OnEveryWayIn passed place) : other.OnEveryWayIn passed' place' := by
  intro places' path'
  have entries := (entry_twins same second.here_inside second.there_inside).symm
  obtain ⟨ends, places, twins, path, through⟩ := path_twin same.symm path' entries
  obtain rfl := twins.unique same.linked second.symm
  obtain ⟨there, member, passing⟩ := through passed (every places path)
  exact passing.symm.unique same.linked' first ▸ member

private theorem onEveryWayOut_twin (same : SameFlow func other)
    (first : Twins func other passed passed') (second : Twins func other place place')
    (every : func.OnEveryWayOut passed place) : other.OnEveryWayOut passed' place' := by
  intro exit' places' last' path'
  obtain ⟨exit, places, twins, path, through⟩ :=
    path_twin same.symm path' second.symm
  obtain ⟨there, member, passing⟩ := through passed
    (every exit places (exit_twin same.symm twins last') path)
  exact passing.symm.unique same.linked' first ▸ member

private theorem entered_twin (same : SameFlow func other)
    (twins : Twins func other here there)
    (entered : func.IsEntered here) : other.IsEntered there := by
  obtain ⟨places, path⟩ := entered
  obtain ⟨ends, places', ended, path', -⟩ := path_twin same path
    (entry_twins same twins.here_inside twins.there_inside)
  exact ⟨places', ended.unique same.linked' twins ▸ path'⟩

private theorem left_twin (same : SameFlow func other)
    (twins : Twins func other here there)
    (left : func.IsLeft here) : other.IsLeft there := by
  obtain ⟨exit, places, last, path⟩ := left
  obtain ⟨exit', places', ended, path', -⟩ := path_twin same path twins
  exact ⟨exit', places', exit_twin same ended last, path'⟩

/-! ## Parents -/

/-- Dominance that is the same between twins. -/
private def Carried (func other : Func) (first second : Nat → Nat → Prop) : Prop :=
  ∀ {a a' b b'}, Twins func other a a' → Twins func other b b' → (first a b ↔ second a' b')

private theorem Carried.symm {first second : Nat → Nat → Prop}
    (carried : Carried func other first second) : Carried other func second first :=
  fun above below => (carried above.symm below.symm).symm

private theorem way_in_carried (same : SameFlow func other) :
    Carried func other func.OnEveryWayIn other.OnEveryWayIn :=
  fun above below => ⟨onEveryWayIn_twin same above below,
    onEveryWayIn_twin same.symm above.symm below.symm⟩

private theorem way_out_carried (same : SameFlow func other) :
    Carried func other func.OnEveryWayOut other.OnEveryWayOut :=
  fun above below => ⟨onEveryWayOut_twin same above below,
    onEveryWayOut_twin same.symm above.symm below.symm⟩

private theorem strictly_twin {first second : Nat → Nat → Prop} (same : SameFlow func other)
    (carried : Carried func other first second)
    (above : Twins func other passed passed') (below : Twins func other place place')
    (dominates : StrictlyDominates func.blocks.length first passed place) :
    StrictlyDominates other.blocks.length second passed' place' := by
  obtain ⟨-, different, lies⟩ := dominates
  refine ⟨above.there_inside, fun one => different ?_, (carried above below).mp lies⟩
  subst one
  exact above.symm.unique same.linked below.symm

private theorem immediately_twin {first second : Nat → Nat → Prop} (same : SameFlow func other)
    (carried : Carried func other first second)
    (above : Twins func other passed passed') (below : Twins func other place place')
    (dominates : ImmediatelyDominates func.blocks.length first passed place) :
    ImmediatelyDominates other.blocks.length second passed' place' := by
  refine ⟨strictly_twin same carried above below dominates.1, fun rival' strict' => ?_⟩
  obtain ⟨rival, twins⟩ := exists_twin same.symm strict'.1
  have strict := strictly_twin same.symm carried.symm twins below.symm strict'
  exact (carried twins.symm above).mp (dominates.2 rival strict)

/-- Twins have parents of one label, or none. -/
private theorem parent_twin {first second : Nat → Nat → Prop} (same : SameFlow func other)
    (carried : Carried func other first second) (below : Twins func other place place')
    {parent parent' : Option Nat}
    (nearest : ∀ a, parent = some a ↔ ImmediatelyDominates func.blocks.length first a place)
    (nearest' : ∀ a, parent' = some a ↔
      ImmediatelyDominates other.blocks.length second a place') :
    parent'.map other.labelAt = parent.map func.labelAt := by
  cases found : parent with
  | some a =>
    have immediate := (nearest a).mp found
    obtain ⟨a', twins⟩ := exists_twin same immediate.1.1
    have found' := (nearest' a').mpr (immediately_twin same carried twins below immediate)
    rw [found', Option.map_some, Option.map_some, twins.label]
  | none =>
    cases found' : parent' with
    | none => rfl
    | some a' =>
      have immediate := (nearest' a').mp found'
      obtain ⟨a, twins⟩ := exists_twin same.symm immediate.1.1
      have missing := (nearest a).mpr
        (immediately_twin same.symm carried.symm twins below.symm immediate)
      rw [found] at missing
      cases missing

/-- The parent of a place that control gets to is its immediate dominator, and the entry alone
has none. The parent of a place that control gets out from is its immediate post-dominator, if
anything else lies on every way out. Listing the blocks behind the entry in another order
changes neither. -/
theorem parents_are_immediate (built : ofModule function = .ok func)
    (inside : place < func.blocks.length) :
    (func.IsEntered place →
      (∀ nearest, (func.domTree .forward).parent? place = some nearest ↔
        ImmediatelyDominates func.blocks.length func.OnEveryWayIn nearest place) ∧
      ((∃ nearest, (func.domTree .forward).parent? place = some nearest) ↔
        ∃ strict, StrictlyDominates func.blocks.length func.OnEveryWayIn strict place) ∧
      ((func.domTree .forward).parent? place = none ↔ place = 0)) ∧
    (func.IsLeft place →
      (∀ nearest, (func.domTree .backward).parent? place = some nearest ↔
        ImmediatelyDominates func.blocks.length func.OnEveryWayOut nearest place) ∧
      ((∃ nearest, (func.domTree .backward).parent? place = some nearest) ↔
        ∃ strict, StrictlyDominates func.blocks.length func.OnEveryWayOut strict place)) ∧
    ∀ entry rest reordered, function.blocks = entry :: rest → reordered.Perm rest →
      ∃ other place', ofModule { function with blocks := entry :: reordered } = .ok other ∧
        other.place? (func.labelAt place) = some place' ∧
        (func.IsEntered place →
          ((other.domTree .forward).parent? place').map other.labelAt =
            ((func.domTree .forward).parent? place).map func.labelAt) ∧
        (func.IsLeft place →
          ((other.domTree .backward).parent? place').map other.labelAt =
            ((func.domTree .backward).parent? place).map func.labelAt) := by
  have linked := linked_ofModule built
  refine ⟨fun entered => ?_, fun left => parent_backward linked inside left, ?_⟩
  · obtain ⟨nearest, some⟩ := parent_forward linked inside entered
    exact ⟨nearest, some, parent_forward_none_iff linked inside entered⟩
  · intro entry rest reordered first order
    obtain ⟨other, built', same⟩ := reordered_ofModule built first order
    obtain ⟨place', twins⟩ := exists_twin same inside
    have inside' := twins.there_inside
    have found : other.place? (func.labelAt place) = some place' := by
      have here : other.blocks[place']? = some other.blocks[place'] :=
        List.getElem?_eq_getElem inside'
      rw [← twins.label, labelAt_eq here]
      exact same.linked'.placeOf?_block here
    refine ⟨other, place', built', found, fun entered => ?_, fun left => ?_⟩
    · exact parent_twin same (way_in_carried same) twins (parent_forward linked inside entered).1
        (parent_forward same.linked' inside' (entered_twin same twins entered)).1
    · exact parent_twin same (way_out_carried same) twins (parent_backward linked inside left).1
        (parent_backward same.linked' inside' (left_twin same twins left)).1

/-- The blocks behind the entry of the next function: a loop that can be entered at two places,
its exit, and a block that nothing leads to but that leads into the rest. -/
def tangledBlocks : List Module.Block := [
  { label := "left", phis := [], instrs := [], terminator := .jump "right" },
  { label := "right", phis := [], instrs := [],
    terminator := .branch .i1 (.temp (.ofLocal "c" .i1)) "left" "tail" },
  { label := "lost", phis := [], instrs := [], terminator := .jump "tail" },
  { label := "tail", phis := [], instrs := [], terminator := .ret none }]

def tangledFunction (blocks : List Module.Block) : Module.Function where
  name := "tangled"
  returnType := .void
  params := [.ofLocal "c" .i1]
  blocks :=
    { label := "entry", phis := [], instrs := [],
      terminator := .branch .i1 (.temp (.ofLocal "c" .i1)) "left" "right" } :: blocks

/-- The right side of the loop is the immediate dominator of the tail, whatever the lost block
leads to, and the immediate post-dominator of the left side. With the blocks turned round it is
still the one that the tail gets as its parent. -/
theorem tangled_parents : ∃ func, ofModule (tangledFunction tangledBlocks) = .ok func ∧
    func.IsEntered 4 ∧ ImmediatelyDominates func.blocks.length func.OnEveryWayIn 2 4 ∧
    func.IsLeft 1 ∧ ImmediatelyDominates func.blocks.length func.OnEveryWayOut 2 1 ∧
    ∃ other place, ofModule (tangledFunction tangledBlocks.reverse) = .ok other ∧
      other.place? "tail" = some place ∧
      ((other.domTree .forward).parent? place).map other.labelAt = some "right" := by
  obtain ⟨func, built, count, ⟨tail, right⟩, ⟨fromEntry, fromLeft, fromRight, exits⟩, parents⟩ :
      ∃ func, ofModule (tangledFunction tangledBlocks) = .ok func ∧ func.blocks.length = 5 ∧
        (func.labelAt 4 = "tail" ∧ func.labelAt 2 = "right") ∧
        ((FlowGraph.forward func.blocks).next 0 = [1, 2] ∧
          (FlowGraph.forward func.blocks).next 1 = [2] ∧
          (FlowGraph.forward func.blocks).next 2 = [1, 4] ∧ func.exits = [4]) ∧
        (func.domTree .forward).parent? 4 = some 2 ∧
          (func.domTree .backward).parent? 1 = some 2 :=
    ⟨_, rfl, rfl, ⟨rfl, rfl⟩, by cbv, by cbv⟩
  have onward : func.Follows 2 4 := mem_forward_next.mp (by simp [fromRight])
  have entered : func.IsEntered 4 :=
    ⟨_, .step (mem_forward_next.mp (by simp [fromEntry])) (.step onward .here)⟩
  have left : func.IsLeft 1 :=
    ⟨4, _, mem_exits_iff.mp (by simp [exits]),
      .step (mem_forward_next.mp (by simp [fromLeft])) (.step onward .here)⟩
  obtain ⟨way_in, -, order⟩ := parents_are_immediate built (show 4 < func.blocks.length by omega)
  obtain ⟨-, way_out, -⟩ := parents_are_immediate built (show 1 < func.blocks.length by omega)
  obtain ⟨other, place, built', found, same, -⟩ :=
    order _ tangledBlocks tangledBlocks.reverse rfl (List.reverse_perm _)
  rw [tail] at found
  refine ⟨func, built, entered, ((way_in entered).1 2).mp parents.1, left,
    ((way_out left).1 2).mp parents.2, other, place, built', found, ?_⟩
  rw [same entered, parents.1, Option.map_some, right]

end KernelGuard.Func
