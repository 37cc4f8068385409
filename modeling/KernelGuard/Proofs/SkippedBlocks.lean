import KernelGuard.Proofs.GuardLocation
import KernelGuard.Proofs.ImmediateDominance
import Mathlib.Data.List.Perm.Subperm

/-! Skipping blocks, one step after another. A place is left where its block only passes
control on, and no place is left twice, so there are no more steps than blocks. A place
that is left has one way on, so every way out from where skipping began comes through each
place that it gets to. It comes to a place again only where control goes round for good,
and then to the place where it began. -/
namespace KernelGuard

namespace Func

/-- The block at a place is a single jump with one way in and one way out. -/
def ForwardsAt (func : Func) (place : Nat) : Prop :=
  ∃ block, func.blocks[place]? = some block ∧ block.isForwarding = true

variable {func : Func} {start place next last exit : Nat} {skipped places : List Nat}

theorem forwardsAt_iff : func.ForwardsAt place ↔ ∃ next, func.PassesOn place next := by
  constructor
  · rintro ⟨block, here, forwards⟩
    have single : block.succ.length = 1 := by
      simp only [Block.isForwarding, Bool.and_eq_true, decide_eq_true_eq] at forwards
      exact forwards.2
    obtain ⟨next, only⟩ := List.length_eq_one_iff.mp single
    exact ⟨next, (passesOn_iff here).mpr ⟨by rw [Block.onlySucc?, only], forwards⟩⟩
  · rintro ⟨next, passes⟩
    obtain ⟨block, here, -⟩ := id passes
    exact ⟨block, here, ((passesOn_iff here).mp passes).2⟩

/-- If every way out from a place comes through a second one, and every way out from that one
through a third, they all come through the third. -/
theorem onEveryWayOut_trans (linked : func.IsLinked) (out : func.OnEveryWayOut last place)
    (out' : func.OnEveryWayOut place start) : func.OnEveryWayOut last start := by
  rw [← on_every_backward_walk_iff linked] at *
  exact FlowGraph.onEveryWalk_trans out out'

/-- Where control is passed on, every way out goes on at the next place. -/
theorem PassesOn.way_on (passes : func.PassesOn place next) (exits : func.IsExit exit)
    (path : func.Path place exit places) :
    ∃ rest, places = place :: rest ∧ func.Path next exit rest := by
  obtain ⟨block, here, -, -, only⟩ := passes
  cases path with
  | here =>
    obtain ⟨_, here', stops⟩ := exits
    cases here.symm.trans here'
    simp [only] at stops
  | step edge rest =>
    obtain ⟨_, here', member⟩ := edge
    cases here.symm.trans here'
    obtain rfl : _ = next := by simpa [only] using member
    exact ⟨_, rfl, rest⟩

namespace Skips

theorem concat (skips : func.Skips start skipped place) (passes : func.PassesOn place next) :
    func.Skips start (skipped ++ [place]) next := by
  induction skips with
  | arrive => exact .pass passes .arrive
  | pass first _ ih => exact .pass first (ih passes)

theorem forwards (skips : func.Skips start skipped last) :
    ∀ place ∈ skipped, func.ForwardsAt place := by
  induction skips with
  | arrive => exact List.forall_mem_nil _
  | pass passes _ ih => exact List.forall_mem_cons.mpr ⟨forwardsAt_iff.mpr ⟨_, passes⟩, ih⟩

/-- Every way out from a place comes through each place that skipping gets to from it. -/
theorem onEveryWayOut (skips : func.Skips start skipped last) :
    func.OnEveryWayOut last start := by
  induction skips with
  | arrive => exact fun _ _ _ path => path.source_mem
  | pass passes _ ih =>
    intro exit places exits path
    obtain ⟨rest, rfl, onward⟩ := passes.way_on exits path
    exact List.mem_cons_of_mem _ (ih exit rest exits onward)

/-- What is skipped last passes control on to the place where skipping arrives. -/
theorem arrives_from (skips : func.Skips start skipped last) (some' : skipped ≠ []) :
    ∃ place ∈ skipped, func.PassesOn place last := by
  induction skips with
  | arrive => exact absurd rfl some'
  | @pass place _ _ _ passes rest ih =>
    cases rest with
    | arrive => exact ⟨place, List.mem_cons_self, passes⟩
    | pass passes' rest' =>
      obtain ⟨before, member, arrives⟩ := ih (List.cons_ne_nil _ _)
      exact ⟨before, List.mem_cons_of_mem _ member, arrives⟩

end Skips

/-- Control is passed on to a forwarding block from one place only. -/
theorem ForwardsAt.passed_by_one (linked : func.IsLinked) (forwards : func.ForwardsAt place)
    (first : func.PassesOn start place) (second : func.PassesOn last place) : start = last := by
  obtain ⟨_, block, there, -, single, -⟩ := forwardsAt_iff.mp forwards
  obtain ⟨before, only⟩ := List.length_eq_one_iff.mp single
  have comes : ∀ {source}, func.PassesOn source place → source = before := by
    intro source passes
    obtain ⟨_, there', member⟩ := (linked.mirrored source place).mp passes.follows
    cases there.symm.trans there'
    simpa [only] using member
  rw [comes first, comes second]

/-- Skipping comes back to no other place than the one where it began: the first place that is
met again would have a second way in. -/
theorem Skips.again_at_start (linked : func.IsLinked) (skips : func.Skips start skipped last)
    (once : skipped.Nodup) (again : last ∈ skipped) : last = start := by
  induction skips with
  | arrive => cases again
  | @pass place next skipped last passes rest ih =>
    obtain ⟨fresh, once⟩ := List.nodup_cons.mp once
    rcases List.mem_cons.mp again with rfl | later
    · rfl
    obtain rfl := ih once later
    -- the place that is met again is forwarding, but comes after the start and after a later place
    obtain ⟨before, member, arrives⟩ := rest.arrives_from (List.ne_nil_of_mem later)
    obtain rfl := (rest.forwards last later).passed_by_one linked passes arrives
    exact absurd member fresh

end Func

/-! ## Steps -/

/-- How far skipping has come: the places that were left, in order, and where it is. -/
structure Skipping where
  left : List Nat
  place : Nat

namespace Skipping

/-- One step: a place that passes control on is left, unless it was left before. -/
inductive Step (func : Func) : Skipping → Skipping → Prop where
  | leave (passes : func.PassesOn source next) (fresh : source ∉ gone) :
      Step func ⟨gone, source⟩ ⟨gone ++ [source], next⟩

/-- Steps one after another, and how many. -/
inductive Steps (func : Func) : Nat → Skipping → Skipping → Prop where
  | none : Steps func 0 state state
  | more (earlier : Steps func count start state) (step : Step func state state') :
      Steps func (count + 1) start state'

/-- There is no step to take. -/
def HasEnded (func : Func) (state : Skipping) : Prop := ∀ state', ¬Step func state state'

/-- What is computed from here on. -/
def answer (func : Func) (state : Skipping) : Nat :=
  EarlyExit.skipForwarding func.blocks ((List.range func.blocks.length).diff state.left) state.place

/-- Where skipping may have come to from a place in a number of steps. -/
structure IsFrom (func : Func) (start count : Nat) (state : Skipping) : Prop where
  skips : func.Skips start state.left state.place
  once : state.left.Nodup
  counted : state.left.length = count
  answered : state.answer func = EarlyExit.representative func start

variable {func : Func} {start count : Nat} {state state' : Skipping}

/-- A step is taken where the definition goes on with another place. -/
theorem answer_of_step (step : Step func state state') : state'.answer func = state.answer func := by
  obtain @⟨place, next, gone, passes, fresh⟩ := step
  obtain ⟨block, here, -⟩ := id passes
  obtain ⟨only, forwards⟩ := (Func.passesOn_iff here).mp passes
  have inside : place ∈ List.range func.blocks.length :=
    List.mem_range.mpr (List.getElem?_eq_some_iff.mp here).1
  have unvisited : place ∈ (List.range func.blocks.length).diff gone :=
    List.mem_diff_of_mem inside fresh
  rw [answer, answer, EarlyExit.skipForwarding.eq_def _ _ place]
  simp [here, only, forwards, unvisited, List.diff_append]

/-- Where no step is taken the definition gives the place. -/
theorem answer_of_ended (ended : HasEnded func state) : state.answer func = state.place := by
  obtain ⟨gone, place⟩ := state
  rw [answer, EarlyExit.skipForwarding]
  split
  · rfl
  rename_i block here
  split
  · rfl
  rename_i next only
  refine if_neg fun forwards => ?_
  have fresh : place ∉ gone := ((List.nodup_range.mem_sdiff_iff).mp forwards.2).2
  exact ended _ (.leave ((Func.passesOn_iff here).mpr ⟨only, forwards.1⟩) fresh)

theorem from_start (func : Func) (start : Nat) : IsFrom func start 0 ⟨[], start⟩ where
  skips := .arrive
  once := List.nodup_nil
  counted := rfl
  answered := rfl

theorem IsFrom.step (known : IsFrom func start count state) (step : Step func state state') :
    IsFrom func start (count + 1) state' := by
  have answered := (answer_of_step step).trans known.answered
  obtain ⟨passes, fresh⟩ := step
  exact {
    skips := known.skips.concat passes
    once := by
      simpa [List.nodup_append] using ⟨known.once, fun other member same => fresh (same ▸ member)⟩
    counted := by simp [known.counted]
    answered }

theorem IsFrom.steps (steps : Steps func count ⟨[], start⟩ state) : IsFrom func start count state := by
  generalize begins : (⟨[], start⟩ : Skipping) = begin at steps
  induction steps with
  | none => exact begins ▸ from_start func start
  | more _ step ih => exact (ih begins).step step

/-- There are no more steps than blocks, since no block is left twice. -/
theorem IsFrom.count_le (known : IsFrom func start count state) : count ≤ func.blocks.length := by
  have inside : state.left ⊆ List.range func.blocks.length := by
    intro place member
    obtain ⟨block, here, -⟩ := known.skips.forwards place member
    exact List.mem_range.mpr (List.getElem?_eq_some_iff.mp here).1
  rw [← known.counted]
  simpa using (known.once.subperm inside).length_le

/-- Steps that go on for ever would be more than there are blocks. -/
theorem exists_end (func : Func) (start : Nat) :
    ∃ count state, Steps func count ⟨[], start⟩ state ∧ HasEnded func state := by
  by_contra endless
  -- without an end there is one more step whatever the number of steps
  have further : ∀ count, ∃ state, Steps func count ⟨[], start⟩ state := by
    intro count
    induction count with
    | zero => exact ⟨_, .none⟩
    | succ count ih =>
      obtain ⟨state, steps⟩ := ih
      obtain ⟨state', step⟩ : ∃ state', Step func state state' := by
        by_contra ended
        exact endless ⟨count, state, steps, not_exists.mp ended⟩
      exact ⟨state', .more steps step⟩
  obtain ⟨state, steps⟩ := further (func.blocks.length + 1)
  exact absurd (IsFrom.steps steps).count_le (Nat.not_succ_le_self _)

/-- Skipping ends at a block that does not pass control on, or at one that was left before. -/
theorem IsFrom.forwards_iff_again (known : IsFrom func start count state)
    (ended : HasEnded func state) : func.ForwardsAt state.place ↔ state.place ∈ state.left := by
  refine ⟨fun forwards => ?_, known.skips.forwards _⟩
  obtain ⟨next, passes⟩ := Func.forwardsAt_iff.mp forwards
  by_contra fresh
  exact ended _ (.leave passes fresh)

end Skipping

namespace Func

/-- Skipping from a place takes no more steps than there are blocks until it ends, at the place
that stands for the one where it began; a step is where the definition goes on with another place
to the same answer. Only forwarding blocks are left. Where it ends is a forwarding block just if
it was left before, and then control goes round through the blocks that were left, back to the
first. Every way out from the place comes through the one that stands for it, which therefore
post-dominates whatever the place does. -/
theorem skipping_keeps_to_ways_out {function : Module.Function} {func : Func}
    (built : ofModule function = .ok func) {start : Nat} (inside : start < func.blocks.length) :
    let last := EarlyExit.representative func start
    (∃ count state, Skipping.Steps func count ⟨[], start⟩ state ∧ Skipping.HasEnded func state) ∧
    (∀ count state, Skipping.Steps func count ⟨[], start⟩ state →
      count ≤ func.blocks.length ∧ state.answer func = last ∧
      (∀ place ∈ state.left, func.ForwardsAt place) ∧
      (Skipping.HasEnded func state →
        state.place = last ∧ (func.ForwardsAt last ↔ last ∈ state.left) ∧
        (last ∈ state.left → last = start ∧ func.Skips start state.left start))) ∧
    func.OnEveryWayOut last start ∧
    ∀ place < func.blocks.length,
      (func.OnEveryWayOut start place → func.OnEveryWayOut last place) ∧
      ((func.domTree .backward).dominates start place = true →
        (func.domTree .backward).dominates last place = true) := by
  intro last
  have linked := linked_ofModule built
  obtain ⟨skipped, skips, -⟩ := @isRepresentative_representative func start
  have out : func.OnEveryWayOut last start := skips.onEveryWayOut
  refine ⟨Skipping.exists_end func start, ?_, out,
    fun place there => ⟨onEveryWayOut_trans linked out, fun dominates => ?_⟩⟩
  · intro count state steps
    have known := Skipping.IsFrom.steps steps
    refine ⟨known.count_le, known.answered, known.skips.forwards, fun ended => ?_⟩
    have comes : state.place = last := (Skipping.answer_of_ended ended).symm.trans known.answered
    have again := known.forwards_iff_again ended
    have came := known.skips
    rw [comes] at again came
    refine ⟨comes, again, fun member => ?_⟩
    have back : last = start := came.again_at_start linked known.once member
    exact ⟨back, back ▸ came⟩
  · rw [dominates_backward_iff linked inside there] at dominates
    rw [dominates_backward_iff linked (skips.inside linked inside) there]
    exact onEveryWayOut_trans linked out dominates

/-- A branch whose targets coincide and a jump lead to the exit; two lost blocks jump to each
other. -/
def relayFunction : Module.Function where
  name := "relay"
  returnType := .void
  params := [.ofLocal "c" .i1]
  blocks := [
    { label := "entry", phis := [], instrs := [],
      terminator := .branch .i1 (.temp (.ofLocal "c" .i1)) "work" "hop" },
    { label := "work", phis := [], instrs := [.call none .void "work" []],
      terminator := .jump "exit" },
    { label := "hop", phis := [], instrs := [],
      terminator := .branch .i1 (.temp (.ofLocal "c" .i1)) "leap" "leap" },
    { label := "leap", phis := [], instrs := [], terminator := .jump "exit" },
    { label := "exit", phis := [], instrs := [], terminator := .ret none },
    { label := "to", phis := [], instrs := [], terminator := .jump "fro" },
    { label := "fro", phis := [], instrs := [], terminator := .jump "to" }]

/-- The hop stands for the exit, which every way out from it comes through; between the two
lost blocks control goes round. -/
theorem relay_skipped : ∃ func, ofModule relayFunction = .ok func ∧
    func.OnEveryWayOut 4 2 ∧
    ∃ count left, Skipping.Steps func count ⟨[], 5⟩ ⟨left, 5⟩ ∧ count ≤ 7 ∧ 5 ∈ left ∧
      func.Skips 5 left 5 := by
  obtain ⟨func, built, count, exit, round, forwards⟩ : ∃ func, ofModule relayFunction = .ok func ∧
      func.blocks.length = 7 ∧ EarlyExit.representative func 2 = 4 ∧
      EarlyExit.representative func 5 = 5 ∧ func.ForwardsAt 5 :=
    ⟨_, rfl, rfl, by cbv, by cbv, _, rfl, by decide⟩
  obtain ⟨-, -, out, -⟩ := skipping_keeps_to_ways_out built (show 2 < func.blocks.length by omega)
  obtain ⟨⟨steps, ⟨left, place⟩, taken, ended⟩, runs, -⟩ :=
    skipping_keeps_to_ways_out built (show 5 < func.blocks.length by omega)
  obtain ⟨bounded, -, -, ends⟩ := runs _ _ taken
  obtain ⟨rfl, again, around⟩ := ends ended
  rw [round] at taken again around
  have member := again.mp forwards
  exact ⟨func, built, exit ▸ out, steps, left, taken, count ▸ bounded, member, (around member).2⟩

end Func

end KernelGuard
