import KernelGuard.Guard.EarlyExit
import KernelGuard.Proofs.PathDominance

/-! Which guard a region has. The first conditional branch of the region decides:
each of its targets stands for the block where control ends up once blocks that only
pass it on are skipped, and the first such block that lies on every way out of the
branch is the exit. -/
namespace KernelGuard.Func

/-- A block of one instruction, with one way in and one way out, passes control on. -/
def PassesOn (func : Func) (place next : Nat) : Prop :=
  ∃ block, func.blocks[place]? = some block ∧ block.size = 1 ∧ block.prev.length = 1 ∧
    block.succ = [next]

/-- Control is passed on through some places, one after another, to a last one. -/
inductive Skips (func : Func) : Nat → List Nat → Nat → Prop where
  | arrive : Skips func place [] place
  | pass (passes : func.PassesOn place next) (rest : Skips func next skipped last) :
      Skips func place (place :: skipped) last

/-- The block where control ends up from a place. Nothing is skipped twice, and the
skipping ends where control is not passed on or where it has been before. -/
def IsRepresentative (func : Func) (place last : Nat) : Prop :=
  ∃ skipped, func.Skips place skipped last ∧ skipped.Nodup ∧
    (last ∈ skipped ∨ ∀ next, ¬func.PassesOn last next)

/-- The block at a place ends in a conditional branch. -/
def BranchesAt (func : Func) (place : Nat) (condition : Value) (onTrue onFalse : Label) : Prop :=
  ∃ block type, func.blocks[place]? = some block ∧
    block.terminator = some (.branch type condition onTrue onFalse)

/-- A place is the first one of a region whose block ends in a conditional branch. -/
def IsFirstBranch (func : Func) (region : Region) (place : Nat) (condition : Value)
    (onTrue onFalse : Label) : Prop :=
  ∃ earlier later, region = earlier ++ place :: later ∧
    func.BranchesAt place condition onTrue onFalse ∧
    ∀ other ∈ earlier, ∀ condition onTrue onFalse, ¬func.BranchesAt other condition onTrue onFalse

/-- A target of a branch stands for a block that lies on every way out of the branch. -/
def LeadsOut (func : Func) (place : Nat) (target : Label) (exit : Nat) : Prop :=
  ∃ next, func.place? target = some next ∧ func.IsRepresentative next exit ∧
    func.OnEveryWayOut exit place

/-- The guard of a region, if it has one: the target taken on true counts before the
target taken on false. -/
inductive IsGuard (func : Func) (region : Region) : Option EarlyExit → Prop where
  | unbranched (none' : ∀ place ∈ region, ∀ condition onTrue onFalse,
      ¬func.BranchesAt place condition onTrue onFalse) : IsGuard func region none
  | onTrue (branch : func.IsFirstBranch region place condition onTrue onFalse)
      (out : func.LeadsOut place onTrue exit) :
      IsGuard func region (some ⟨func.labelAt place, func.labelAt exit, condition⟩)
  | onFalse (branch : func.IsFirstBranch region place condition onTrue onFalse)
      (true' : ∀ exit, ¬func.LeadsOut place onTrue exit) (out : func.LeadsOut place onFalse exit) :
      IsGuard func region (some ⟨func.labelAt place, func.labelAt exit, condition⟩)
  | neither (branch : func.IsFirstBranch region place condition onTrue onFalse)
      (true' : ∀ exit, ¬func.LeadsOut place onTrue exit)
      (false' : ∀ exit, ¬func.LeadsOut place onFalse exit) : IsGuard func region none

/-! ## Skipping blocks -/

variable {func : Func} {place next last : Nat} {region : Region}

theorem PassesOn.follows (passes : func.PassesOn place next) : func.Follows place next := by
  obtain ⟨block, here, -, -, only⟩ := passes
  exact ⟨block, here, by simp [only]⟩

theorem PassesOn.unique (passes : func.PassesOn place next) (other : func.PassesOn place last) :
    next = last := by
  obtain ⟨block, here, -, -, only⟩ := passes
  obtain ⟨_, here', -, -, only'⟩ := other
  rw [here] at here'
  cases here'
  simpa using only.symm.trans only'

theorem Skips.inside (linked : func.IsLinked) (inside : place < func.blocks.length)
    (skips : func.Skips place skipped last) : last < func.blocks.length := by
  induction skips with
  | arrive => exact inside
  | pass passes _ ih => exact ih (linked.target_inside passes.follows)

/-- What stands for a target is a block of the function. -/
theorem IsRepresentative.inside (linked : func.IsLinked) (found : func.place? target = some place)
    (represents : func.IsRepresentative place last) : last < func.blocks.length := by
  obtain ⟨block, here, -⟩ := Edge.block_of_placeOf? found
  obtain ⟨skipped, skips, -⟩ := represents
  exact skips.inside linked (List.getElem?_eq_some_iff.mp here).1

theorem passesOn_iff {block : Block} (here : func.blocks[place]? = some block) :
    func.PassesOn place next ↔ block.onlySucc? = some next ∧ block.isForwarding = true := by
  have only : block.onlySucc? = some next ↔ block.succ = [next] := by
    unfold Block.onlySucc?
    split <;> simp_all
  constructor
  · rintro ⟨block', here', size, prev, succ⟩
    cases here.symm.trans here'
    exact ⟨only.mpr succ, by simp [Block.isForwarding, size, prev, succ]⟩
  · rintro ⟨succ, forwarding⟩
    simp only [Block.isForwarding, Bool.and_eq_true, decide_eq_true_eq] at forwarding
    exact ⟨block, here, forwarding.1.1, forwarding.1.2, only.mp succ⟩

/-- What skipping comes to while some places have not been left yet: nothing is left
twice, and it ends at a place that was left or that does not pass control on. -/
private theorem skipForwarding_skips (unvisited : List Nat) (distinct : unvisited.Nodup) :
    ∃ skipped last, EarlyExit.skipForwarding func.blocks unvisited place = last ∧
      func.Skips place skipped last ∧ skipped.Nodup ∧ (∀ other ∈ skipped, other ∈ unvisited) ∧
      (last ∈ skipped ∨ last ∉ unvisited ∨ ∀ next, ¬func.PassesOn last next) := by
  fun_induction EarlyExit.skipForwarding func.blocks unvisited place with
  | case1 unvisited place missing =>
    refine ⟨[], place, rfl, .arrive, List.nodup_nil, by simp, .inr (.inr ?_)⟩
    rintro next ⟨block, here, -⟩
    simp [missing] at here
  | case2 unvisited place block here several =>
    refine ⟨[], place, rfl, .arrive, List.nodup_nil, by simp, .inr (.inr fun next passes => ?_)⟩
    have only := ((passesOn_iff here).mp passes).1
    simp [several] at only
  | case3 unvisited place block here next only forwards ih =>
    obtain ⟨skipped, last, comes, skips, once, left, ends⟩ := ih (distinct.erase place)
    have passes : func.PassesOn place next := (passesOn_iff here).mpr ⟨only, forwards.1⟩
    have fresh : place ∉ skipped := fun again => distinct.not_mem_erase (left place again)
    refine ⟨place :: skipped, last, comes, .pass passes skips, List.nodup_cons.mpr ⟨fresh, once⟩,
      List.forall_mem_cons.mpr ⟨forwards.2, fun other later => List.mem_of_mem_erase (left other later)⟩, ?_⟩
    rcases ends with again | gone | stays
    · exact .inl (List.mem_cons_of_mem _ again)
    · by_cases same : last = place
      · exact .inl (same ▸ List.mem_cons_self)
      · exact .inr (.inl fun member => gone ((List.mem_erase_of_ne same).mpr member))
    · exact .inr (.inr stays)
  | case4 unvisited place block here next only stays =>
    refine ⟨[], place, rfl, .arrive, List.nodup_nil, by simp, .inr ?_⟩
    by_cases member : place ∈ unvisited
    · refine .inr fun next passes => stays ⟨((passesOn_iff here).mp passes).2, member⟩
    · exact .inl member

/-- Skipping ends at the representative. -/
theorem isRepresentative_representative (place : Nat) :
    func.IsRepresentative place (EarlyExit.representative func place) := by
  obtain ⟨skipped, last, comes, skips, once, -, ends⟩ :=
    @skipForwarding_skips func place _ List.nodup_range
  rw [EarlyExit.representative, comes]
  refine ⟨skipped, skips, once, ?_⟩
  rcases ends with again | outside | stays
  · exact .inl again
  · refine .inr fun next passes => outside ?_
    obtain ⟨block, here, -⟩ := passes
    exact List.mem_range.mpr (List.getElem?_eq_some_iff.mp here).1
  · exact .inr stays

/-- There is one way to skip from a place until control is not passed on or some
place is met that was left before. -/
private theorem skips_unique (before : List Nat) (skips : func.Skips place skipped last)
    (other : func.Skips place skipped' last') (once : (before ++ skipped).Nodup)
    (once' : (before ++ skipped').Nodup)
    (ends : last ∈ before ++ skipped ∨ ∀ next, ¬func.PassesOn last next)
    (ends' : last' ∈ before ++ skipped' ∨ ∀ next, ¬func.PassesOn last' next) : last = last' := by
  induction skips generalizing before skipped' with
  | arrive =>
    cases other with
    | arrive => rfl
    | pass passes _ =>
      rcases ends with known | stays
      · exact absurd List.mem_cons_self (List.disjoint_of_nodup_append once' (by simpa using known))
      · exact absurd passes (stays _)
  | @pass place _ _ _ passes rest ih =>
    cases other with
    | arrive =>
      rcases ends' with known | stays
      · exact absurd List.mem_cons_self (List.disjoint_of_nodup_append once (by simpa using known))
      · exact absurd passes (stays _)
    | pass passes' rest' =>
      cases passes.unique passes'
      have split : ∀ skipped, before ++ place :: skipped = (before ++ [place]) ++ skipped := by simp
      exact ih _ rest' (split _ ▸ once) (split _ ▸ once') (split _ ▸ ends) (split _ ▸ ends')

/-- A place has one representative. -/
theorem isRepresentative_iff :
    func.IsRepresentative place last ↔ last = EarlyExit.representative func place := by
  constructor
  · rintro ⟨skipped, skips, once, ends⟩
    obtain ⟨skipped', skips', once', ends'⟩ := @isRepresentative_representative func place
    exact skips_unique [] skips skips' once once' ends ends'
  · rintro rfl
    exact isRepresentative_representative place

/-! ## The branch and its targets -/

private theorem branchAt?_eq_some_iff {candidate : Candidate} :
    EarlyExit.branchAt? func place = some candidate ↔ ∃ condition onTrue onFalse,
      func.BranchesAt place condition onTrue onFalse ∧
        candidate = ⟨place, condition, [onTrue, onFalse]⟩ := by
  constructor
  · intro found
    unfold EarlyExit.branchAt? at found
    split at found
    · rename_i block here
      split at found
      · rename_i type condition onTrue onFalse ends
        cases found
        exact ⟨condition, onTrue, onFalse, ⟨block, type, here, ends⟩, rfl⟩
      · cases found
    · cases found
  · rintro ⟨condition, onTrue, onFalse, ⟨block, type, here, ends⟩, rfl⟩
    simp [EarlyExit.branchAt?, here, ends]

private theorem branchAt?_eq_none_iff : EarlyExit.branchAt? func place = none ↔
    ∀ condition onTrue onFalse, ¬func.BranchesAt place condition onTrue onFalse := by
  rw [Option.eq_none_iff_forall_ne_some]
  constructor
  · exact fun none' condition onTrue onFalse branches =>
      none' _ (branchAt?_eq_some_iff.mpr ⟨condition, onTrue, onFalse, branches, rfl⟩)
  · intro unbranched candidate found
    obtain ⟨condition, onTrue, onFalse, branches, -⟩ := branchAt?_eq_some_iff.mp found
    exact unbranched condition onTrue onFalse branches

/-- The look-up of a label that the terminator of a block names finds its place. -/
theorem successor_of_named {block : Block} (linked : func.IsLinked)
    (here : func.blocks[place]? = some block) (named : label ∈ block.targets) :
    ∃ next, func.place? label = some next ∧ EarlyExit.successor? func place label = some next := by
  obtain ⟨next, found, edge⟩ := linked.successor_of_target here named
  refine ⟨next, found, ?_⟩
  obtain ⟨_, here', member⟩ := edge
  cases here.symm.trans here'
  have labelled : func.labelAt next = label := by
    obtain ⟨target, there, rfl⟩ := Edge.block_of_placeOf? found
    exact labelAt_eq there
  cases looked : block.succ.find? (func.labelAt · = label) with
  | none => exact absurd labelled (by simpa using List.find?_eq_none.mp looked next member)
  | some other =>
    have same : func.labelAt other = label := by simpa using List.find?_some looked
    have inside := linked.target_inside ⟨block, here, List.mem_of_find?_eq_some looked⟩
    obtain ⟨target, there⟩ : ∃ target, func.blocks[other]? = some target :=
      ⟨_, List.getElem?_eq_getElem inside⟩
    rw [labelAt_eq there] at same
    have again := linked.placeOf?_block there
    rw [same, found] at again
    simp [EarlyExit.successor?, here, looked, Option.some.inj again]

/-- Where a region has a conditional branch, the first one is what counts. -/
private theorem first_branch_iff {candidate : Candidate} :
    region.findSome? (EarlyExit.branchAt? func) = some candidate ↔
      ∃ place condition onTrue onFalse,
        func.IsFirstBranch region place condition onTrue onFalse ∧
          candidate = ⟨place, condition, [onTrue, onFalse]⟩ := by
  rw [List.findSome?_eq_some_iff]
  constructor
  · rintro ⟨earlier, place, later, split, found, none'⟩
    obtain ⟨condition, onTrue, onFalse, branches, rfl⟩ := branchAt?_eq_some_iff.mp found
    exact ⟨place, condition, onTrue, onFalse, ⟨earlier, later, split, branches,
      fun other member => branchAt?_eq_none_iff.mp (none' other member)⟩, rfl⟩
  · rintro ⟨place, condition, onTrue, onFalse, ⟨earlier, later, split, branches, none'⟩, rfl⟩
    exact ⟨earlier, place, later, split,
      branchAt?_eq_some_iff.mpr ⟨condition, onTrue, onFalse, branches, rfl⟩,
      fun other member => branchAt?_eq_none_iff.mpr (none' other member)⟩

/-- A region has one first branch. -/
theorem IsFirstBranch.unique
    (branch : func.IsFirstBranch region place condition onTrue onFalse)
    (other : func.IsFirstBranch region place' condition' onTrue' onFalse') :
    place = place' ∧ condition = condition' ∧ onTrue = onTrue' ∧ onFalse = onFalse' := by
  have first := first_branch_iff.mpr ⟨place, condition, onTrue, onFalse, branch, rfl⟩
  rw [first_branch_iff.mpr ⟨place', condition', onTrue', onFalse', other, rfl⟩] at first
  cases first
  exact ⟨rfl, rfl, rfl, rfl⟩

/-- What is located at the first branch of a region, in terms of dominance. -/
private theorem locate_of_first_branch (postDominates : Nat → Nat → Bool)
    (linked : func.IsLinked) (branch : func.IsFirstBranch region place condition onTrue onFalse) :
    ∃ first second, func.place? onTrue = some first ∧ func.place? onFalse = some second ∧
      (EarlyExit.locate func region postDominates).value =
        if postDominates (EarlyExit.representative func first) place then
          some ⟨func.labelAt place, func.labelAt (EarlyExit.representative func first), condition⟩
        else if postDominates (EarlyExit.representative func second) place then
          some ⟨func.labelAt place, func.labelAt (EarlyExit.representative func second), condition⟩
        else none := by
  obtain ⟨earlier, later, -, ⟨block, type, here, ends⟩, -⟩ := id branch
  have targets : block.targets = [onTrue, onFalse] := by simp [Block.targets, ends, Instr.targets]
  have nameTrue : onTrue ∈ block.targets := by simp [targets]
  have nameFalse : onFalse ∈ block.targets := by simp [targets]
  obtain ⟨first, foundTrue, lookedTrue⟩ := successor_of_named linked here nameTrue
  obtain ⟨second, foundFalse, lookedFalse⟩ := successor_of_named linked here nameFalse
  refine ⟨first, second, foundTrue, foundFalse, ?_⟩
  have candidate := first_branch_iff.mpr ⟨place, condition, onTrue, onFalse, branch, rfl⟩
  simp only [EarlyExit.locate, candidate, EarlyExit.firstExit?, lookedTrue, lookedFalse,
    Logged.value_bind]
  by_cases yes : postDominates (EarlyExit.representative func first) place = true
  · simp [yes]
  by_cases no : postDominates (EarlyExit.representative func second) place = true
  · simp [yes, no]
  · simp [yes, no]

/-- A target leads out exactly if its representative post-dominates the branch. -/
private theorem leadsOut_iff (linked : func.IsLinked) (inside : place < func.blocks.length)
    (found : func.place? target = some next) :
    func.LeadsOut place target exit ↔ exit = EarlyExit.representative func next ∧
      (func.domTree .backward).dominates (EarlyExit.representative func next) place = true := by
  have within := (@isRepresentative_representative func next).inside linked found
  rw [dominates_backward_iff linked within inside]
  constructor
  · rintro ⟨other, found', represents, out⟩
    cases found.symm.trans found'
    obtain rfl := isRepresentative_iff.mp represents
    exact ⟨rfl, out⟩
  · rintro ⟨rfl, out⟩
    exact ⟨next, found, isRepresentative_representative next, out⟩

/-- What is located at the first branch of a region: the first target that leads out. -/
private theorem located_iff_leadsOut (linked : func.IsLinked)
    (branch : func.IsFirstBranch region place condition onTrue onFalse) :
    let located := (EarlyExit.locate func region (func.domTree .backward).dominates).value
    (∀ exit, func.LeadsOut place onTrue exit →
      located = some ⟨func.labelAt place, func.labelAt exit, condition⟩) ∧
    ((∀ exit, ¬func.LeadsOut place onTrue exit) →
      (∀ exit, func.LeadsOut place onFalse exit →
        located = some ⟨func.labelAt place, func.labelAt exit, condition⟩) ∧
      ((∀ exit, ¬func.LeadsOut place onFalse exit) → located = none)) := by
  intro located
  obtain ⟨first, second, foundTrue, foundFalse, value⟩ :=
    locate_of_first_branch (func.domTree .backward).dominates linked branch
  have inside : place < func.blocks.length := by
    obtain ⟨earlier, later, -, ⟨block, type, here, -⟩, -⟩ := branch
    exact (List.getElem?_eq_some_iff.mp here).1
  simp only [leadsOut_iff linked inside foundTrue, leadsOut_iff linked inside foundFalse]
  refine ⟨?_, fun yes => ⟨?_, fun no => ?_⟩⟩
  · rintro exit ⟨rfl, dominates⟩
    exact value.trans (if_pos dominates)
  · rintro exit ⟨rfl, dominates⟩
    exact value.trans ((if_neg fun first => yes _ ⟨rfl, first⟩).trans (if_pos dominates))
  · exact value.trans ((if_neg fun first => yes _ ⟨rfl, first⟩).trans
      (if_neg fun second => no _ ⟨rfl, second⟩))

/-- A region with a guard has it located, and one without has nothing located. -/
private theorem locate_of_guard (linked : func.IsLinked) (guard : func.IsGuard region result) :
    (EarlyExit.locate func region (func.domTree .backward).dominates).value = result := by
  cases guard with
  | unbranched none' =>
    have unfound : region.findSome? (EarlyExit.branchAt? func) = none :=
      List.findSome?_eq_none_iff.mpr fun place member =>
        branchAt?_eq_none_iff.mpr (none' place member)
    simp only [EarlyExit.locate, unfound, Logged.value_pure]
  | onTrue branch out =>
    exact (located_iff_leadsOut linked branch).1 _ out
  | onFalse branch true' out => exact ((located_iff_leadsOut linked branch).2 true').1 _ out
  | neither branch true' false' => exact ((located_iff_leadsOut linked branch).2 true').2 false'

/-- Every region has a guard or goes without one. -/
private theorem guard_exists (func : Func) (region : Region) :
    ∃ result, func.IsGuard region result := by
  cases found : region.findSome? (EarlyExit.branchAt? func) with
  | none =>
    exact ⟨none, .unbranched fun place member =>
      branchAt?_eq_none_iff.mp (List.findSome?_eq_none_iff.mp found place member)⟩
  | some candidate =>
    obtain ⟨place, condition, onTrue, onFalse, branch, -⟩ := first_branch_iff.mp found
    by_cases yes : ∃ exit, func.LeadsOut place onTrue exit
    · obtain ⟨exit, out⟩ := yes
      exact ⟨_, .onTrue branch out⟩
    have true' := not_exists.mp yes
    by_cases no : ∃ exit, func.LeadsOut place onFalse exit
    · obtain ⟨exit, out⟩ := no
      exact ⟨_, .onFalse branch true' out⟩
    · exact ⟨_, .neither branch true' (not_exists.mp no)⟩

/-- What is located in a region is its guard. -/
theorem locate_eq_iff (linked : func.IsLinked) :
    (EarlyExit.locate func region (func.domTree .backward).dominates).value = result ↔
      func.IsGuard region result := by
  refine ⟨?_, locate_of_guard linked⟩
  rintro rfl
  obtain ⟨result, guard⟩ := guard_exists func region
  exact locate_of_guard linked guard ▸ guard

/-- What is located in a region is the guard it has, nothing where it has none. Every
place has one representative, and no look-up of a branch's target among the
successors of its block fails. -/
theorem guard_located_exactly {function : Module.Function} {func : Func}
    (built : ofModule function = .ok func) (region : Region) (result : Option EarlyExit) :
    ((EarlyExit.locate func region (func.domTree .backward).dominates).value = result ↔
      func.IsGuard region result) ∧
    (∀ place, ∃! last, func.IsRepresentative place last) ∧
    ∀ place condition onTrue onFalse, func.BranchesAt place condition onTrue onFalse →
      ∀ label ∈ [onTrue, onFalse], ∃ next, func.place? label = some next ∧
        EarlyExit.successor? func place label = some next := by
  have linked := linked_ofModule built
  refine ⟨locate_eq_iff linked, fun place => ?_, ?_⟩
  · exact ⟨EarlyExit.representative func place, isRepresentative_representative place,
      fun last represents => isRepresentative_iff.mp represents⟩
  · rintro place condition onTrue onFalse ⟨block, type, here, ends⟩ label named
    have targets : block.targets = [onTrue, onFalse] := by simp [Block.targets, ends, Instr.targets]
    exact successor_of_named linked here (targets ▸ named)

/-- The way around the loop is skipped to the exit, whatever the order of the blocks. -/
theorem winding_guard : ∃ func, ofModule windingFunction = .ok func ∧
    func.IsGuard [3, 2, 2, 0, 1] (some ⟨"entry", "exit", .temp (.ofLocal "c" .i1)⟩) ∧
    ∃ next, func.place? "skip" = some next ∧ EarlyExit.successor? func 0 "skip" = some next := by
  obtain ⟨func, built, located, branches⟩ : ∃ func, ofModule windingFunction = .ok func ∧
      (EarlyExit.locate func [3, 2, 2, 0, 1] (func.domTree .backward).dominates).value =
        some ⟨"entry", "exit", .temp (.ofLocal "c" .i1)⟩ ∧
      func.BranchesAt 0 (.temp (.ofLocal "c" .i1)) "loop" "skip" :=
    ⟨_, rfl, by cbv, _, _, rfl, rfl⟩
  obtain ⟨guard, -, found⟩ := guard_located_exactly built [3, 2, 2, 0, 1]
    (some ⟨"entry", "exit", .temp (.ofLocal "c" .i1)⟩)
  exact ⟨func, built, guard.mp located, found 0 _ _ _ branches "skip" (by simp)⟩

end KernelGuard.Func
