import KernelGuard.Proofs.FusedLowering
import KernelGuard.Proofs.RemovalSession

/-! The names of a function over its whole life. It hands out temporaries, is lowered, and
loses definitions and operands to edits, in any order. A name that is in use stays in use, so
what is handed out is new to the function as it is and as it was, and no edit can define a
local temporary a second time. -/
namespace KernelGuard

namespace Func

/-- The temporaries that phis and plain instructions write, in block order. -/
def targets (func : Func) : List Temp :=
  func.blocks.flatMap fun block => block.body.filterMap Instr.target?

/-- How often a temporary is defined: as a parameter, by a phi or by a plain instruction. -/
def definedTimes (func : Func) (name : Name) : Nat :=
  (func.params ++ func.targets).countP (·.name = name)

/-- No local temporary is defined twice. -/
def DefinesOnce (func : Func) : Prop :=
  ∀ name : Name, name.isGlobal = false → func.definedTimes name ≤ 1

/-- What may happen to a function after it has been linked. A removal of a bound is made for
an analysis in any state, whatever function it was made of. -/
inductive Change where
  | newTemp (stem : String) (type : Ty)
  | lower
  | substitute (name : Name) (value : Value)
  | erase (name : Name)
  | replace (name : Name) (value : Value)
  | removeBound (analysis : Analysis) (remover : Remover)

/-- A function and the temporaries that were asked of it so far. -/
structure History where
  func : Func
  handedOut : List Temp

namespace History

/-- Nothing has happened yet. -/
def start (func : Func) : History := ⟨func, []⟩

/-- What a change leaves behind. A definition that is not there is left alone. -/
def next (history : History) : Change → History
  | .newTemp stem type =>
    ⟨(history.func.newTemp stem type).2,
      history.handedOut ++ [(history.func.newTemp stem type).1]⟩
  | .lower => { history with func := (FusedMultiplyAdd.lower history.func).value.1 }
  | .substitute name value => { history with func := history.func.substitute name value }
  | .erase name =>
    { history with func := (history.func.eraseDefinition? name).getD history.func }
  | .replace name value =>
    { history with func := (history.func.replaceDefinition? name value).getD history.func }
  | .removeBound analysis remover =>
    { history with func := (remover.run analysis history.func).value.func }

/-- What several changes leave behind, one after the other. -/
def after (history : History) (changes : List Change) : History := changes.foldl next history

end History

/-! ## Names in use -/

/-- A function is accounted for when what it is called with and what it writes is in use. -/
theorem accounted_iff {func : Func} :
    func.Accounted ↔ ∀ temp ∈ func.params ++ func.targets, temp.name.spelling ∈ func.names.used := by
  rw [List.forall_mem_append]
  constructor
  · rintro ⟨parameters, written⟩
    refine ⟨parameters, fun temp member => ?_⟩
    obtain ⟨block, inside, writes⟩ := List.mem_flatMap.mp member
    obtain ⟨instr, listed, target⟩ := List.mem_filterMap.mp writes
    exact written block inside instr listed temp target
  · rintro ⟨parameters, written⟩
    refine ⟨parameters, fun block inside instr listed temp target => written temp ?_⟩
    exact List.mem_flatMap.mpr ⟨block, inside, List.mem_filterMap.mpr ⟨instr, listed, target⟩⟩

/-- A function is left of another when definitions were dropped and operands changed. -/
structure LeftOf (now func : Func) : Prop where
  params : now.params = func.params
  names : now.names = func.names
  targets : now.targets.Sublist func.targets

namespace LeftOf

variable {func now later : Func}

theorem refl (func : Func) : func.LeftOf func := ⟨rfl, rfl, .refl _⟩

theorem trans (second : later.LeftOf now) (first : now.LeftOf func) : later.LeftOf func :=
  ⟨second.params.trans first.params, second.names.trans first.names,
    second.targets.trans first.targets⟩

theorem accounted (left : now.LeftOf func) (accounted : func.Accounted) : now.Accounted := by
  rw [accounted_iff, left.params, left.names]
  intro temp member
  exact accounted_iff.mp accounted temp
    (((List.Sublist.refl func.params).append left.targets).subset member)

theorem used (left : now.LeftOf func) : func.names.used ⊆ now.names.used := by
  rw [left.names]
  exact List.Subset.refl _

theorem definedTimes_le (left : now.LeftOf func) (name : Name) :
    now.definedTimes name ≤ func.definedTimes name := by
  rw [definedTimes, definedTimes, left.params]
  exact ((List.Sublist.refl func.params).append left.targets).countP_le

end LeftOf

/-- A substitution changes operands alone. -/
theorem left_substitute (func : Func) (name : Name) (value : Value) :
    (func.substitute name value).LeftOf func := by
  refine ⟨rfl, rfl, ?_⟩
  have same : (func.substitute name value).targets = func.targets := by
    rw [targets, substitute, List.flatMap_map]
    refine congrArg (List.flatMap · func.blocks) (funext fun block => ?_)
    rw [Block.body_mapOperands, List.filterMap_map]
    exact congrArg (List.filterMap · block.body)
      (funext fun instr => Instr.target_mapOperands _ instr)
  rw [same]

private theorem targets_erased (name : Name) (blocks : List Block) :
    ((erased name blocks).flatMap fun block => block.body.filterMap Instr.target?).Sublist
      (blocks.flatMap fun block => block.body.filterMap Instr.target?) := by
  induction blocks with
  | nil => exact .refl _
  | cons block rest ih =>
    rw [erased_cons]
    split
    · rw [List.flatMap_cons, List.flatMap_cons, Block.body_withoutDefinition]
      exact (List.filter_sublist.filterMap _).append (.refl _)
    · rw [List.flatMap_cons, List.flatMap_cons]
      exact (List.Sublist.refl _).append ih

/-- An erasure drops definitions alone. -/
theorem left_erase (func : Func) (name : Name) :
    ((func.eraseDefinition? name).getD func).LeftOf func := by
  cases found : eraseIn name func.blocks with
  | none =>
    simp only [eraseDefinition?, found, Option.map_none, Option.getD_none]
    exact .refl func
  | some blocks =>
    simp only [eraseDefinition?, found, Option.map_some, Option.getD_some]
    refine ⟨rfl, rfl, ?_⟩
    have dropped := targets_erased name func.blocks
    rwa [erased, found, Option.getD_some] at dropped

theorem left_replace (func : Func) (name : Name) (value : Value) :
    ((func.replaceDefinition? name value).getD func).LeftOf func := by
  have erased := func.left_erase name
  cases found : func.eraseDefinition? name with
  | none =>
    simp only [replaceDefinition?, found, Option.map_none, Option.getD_none]
    exact .refl func
  | some shorter =>
    rw [found, Option.getD_some] at erased
    simp only [replaceDefinition?, found, Option.map_some, Option.getD_some]
    exact (shorter.left_substitute name value).trans erased

/-- A removal replaces one definition at most. -/
theorem left_removal (func : Func) (analysis : Analysis) (remover : Remover) :
    (remover.run analysis func).value.func.LeftOf func := by
  have made := Session.removal_func ⟨analysis, func⟩ remover
  rw [show (remover.run analysis func).value.func = _ from made]
  split
  · cases analysis.usable? remover.dimension with
    | none => exact .refl func
    | some fact => exact func.left_replace fact.compare.name (.bool true)
  · exact .refl func

/-! ## What lowering defines -/

/-- How often a local name came into use between two supplies: once at most. -/
private def drawn (before after : List String) (name : Name) : Nat :=
  if name.isGlobal = false ∧ name.spelling ∉ before ∧ name.spelling ∈ after then 1 else 0

private theorem drawn_trans {before between after : List String} (first : before ⊆ between)
    (second : between ⊆ after) (name : Name) :
    drawn before between name + drawn between after name = drawn before after name := by
  unfold drawn
  by_cases isGlobal : name.isGlobal = true
  · simp [isGlobal]
  by_cases old : name.spelling ∈ before
  · simp [old, first old]
  · by_cases known : name.spelling ∈ between
    · simp [isGlobal, old, known, second known]
    · simp [isGlobal, old, known]

/-- A fresh temporary is the one name that comes into use. -/
private theorem drawn_fresh (names : NameSupply) (stem : String) (type : Ty) (name : Name) :
    drawn names.used (names.fresh stem type).2.used name =
      if (names.fresh stem type).1.name = name then 1 else 0 := by
  have unused := names.fresh_unused stem type
  unfold drawn
  simp only [names.mem_used_fresh stem type]
  by_cases same : (names.fresh stem type).1.name = name
  · subst same
    simp [unused]
  · have apart : name.isGlobal = false → name.spelling ≠ (names.fresh stem type).1.name.spelling := by
      rintro isLocal spelled
      apply same
      cases name
      simp_all [NameSupply.fresh, Temp.ofLocal]
    simp only [same, if_false, ite_eq_right_iff]
    rintro ⟨isLocal, new, spelled | known⟩
    · exact absurd spelled (apart isLocal)
    · exact absurd known new

private theorem definedTimes_lowerInstrs (instrs : List Instr) (names : NameSupply) (name : Name) :
    ((FusedMultiplyAdd.lowerInstrs names instrs).value.1.filterMap Instr.target?).countP
        (·.name = name) =
      (instrs.filterMap Instr.target?).countP (·.name = name) +
        drawn names.used (FusedMultiplyAdd.lowerInstrs names instrs).value.2.1.used name := by
  induction instrs generalizing names with
  | nil => simp [FusedMultiplyAdd.lowerInstrs, drawn]
  | cons instr rest ih =>
    cases found : FusedMultiplyAdd.call? instr with
    | none =>
      rw [FusedMultiplyAdd.lowerInstrs_kept found, List.filterMap_cons, List.filterMap_cons]
      cases instr.target? with
      | none => exact ih names
      | some target =>
        simp only [List.countP_cons, ih names]
        omega
    | some call =>
      obtain ⟨callee, aType, bType, cType, rfl, -⟩ :=
        FusedMultiplyAdd.call_eq_some_iff.mp found
      rw [FusedMultiplyAdd.lowerInstrs_call found]
      have known : names.used ⊆ (names.fresh "fmul" call.type).2.used := fun _ old =>
        (names.mem_used_fresh "fmul" call.type).mpr (.inr old)
      have later := ih (names.fresh "fmul" call.type).2
      have drawn := drawn_trans known
        (FusedMultiplyAdd.used_lowerInstrs rest (names.fresh "fmul" call.type).2) name
      rw [drawn_fresh] at drawn
      simp only [FusedMultiplyAdd.lowered, List.cons_append, List.nil_append, List.filterMap_cons,
        Instr.target?, List.countP_cons, decide_eq_true_eq]
      omega

private theorem definedTimes_lowerBlocks (blocks : List Block) (names : NameSupply)
    (name : Name) :
    ((FusedMultiplyAdd.lowerBlocks names blocks).value.1.flatMap fun block =>
        block.body.filterMap Instr.target?).countP (·.name = name) =
      (blocks.flatMap fun block => block.body.filterMap Instr.target?).countP (·.name = name) +
        drawn names.used (FusedMultiplyAdd.lowerBlocks names blocks).value.2.1.used name := by
  induction blocks generalizing names with
  | nil => simp [FusedMultiplyAdd.lowerBlocks, drawn]
  | cons block rest ih =>
    have first := definedTimes_lowerInstrs block.instrs names name
    have later := ih (FusedMultiplyAdd.lowerInstrs names block.instrs).value.2.1
    have drawn := drawn_trans (FusedMultiplyAdd.used_lowerInstrs block.instrs names)
      (FusedMultiplyAdd.used_lowerBlocks rest
        (FusedMultiplyAdd.lowerInstrs names block.instrs).value.2.1) name
    rw [FusedMultiplyAdd.lowerBlocks_value]
    simp only [Block.body, List.filterMap_append] at later
    simp only [List.flatMap_cons, List.countP_append, Block.body, List.filterMap_append]
    omega

/-- Lowering defines a local temporary once more exactly if its name came into use. -/
private theorem definedTimes_lower (func : Func) (name : Name) :
    (FusedMultiplyAdd.lower func).value.1.definedTimes name = func.definedTimes name +
      drawn func.names.used (FusedMultiplyAdd.lower func).value.1.names.used name := by
  have blocks := definedTimes_lowerBlocks func.blocks func.names name
  rw [definedTimes, definedTimes, List.countP_append, List.countP_append, Nat.add_assoc]
  exact congrArg _ blocks

/-- A name that is not in use is not defined. -/
private theorem definedTimes_of_unused {func : Func} (accounted : func.Accounted) {name : Name}
    (unused : name.spelling ∉ func.names.used) : func.definedTimes name = 0 := by
  refine List.countP_eq_zero.mpr fun temp member => ?_
  rw [decide_eq_true_eq]
  rintro rfl
  exact unused (accounted_iff.mp accounted temp member)

private theorem definesOnce_lower {func : Func} (accounted : func.Accounted)
    (once : func.DefinesOnce) : (FusedMultiplyAdd.lower func).value.1.DefinesOnce := by
  intro name isLocal
  rw [definedTimes_lower]
  by_cases known : name.spelling ∈ func.names.used
  · simpa [drawn, known] using once name isLocal
  · rw [definedTimes_of_unused accounted known, drawn]
    split <;> omega

/-! ## The whole life -/

namespace History

variable {history : History}

/-- All names of the function, and of what it has handed out, are in use. -/
structure Sound (history : History) : Prop where
  accounted : history.func.Accounted
  handedOut : ∀ temp ∈ history.handedOut, temp.name.spelling ∈ history.func.names.used

/-- Edits touch neither the supply nor what was handed out. -/
private theorem sound_left {now : Func} (sound : history.Sound) (left : now.LeftOf history.func) :
    Sound { history with func := now } :=
  ⟨left.accounted sound.accounted, fun temp member => left.names ▸ sound.handedOut temp member⟩

theorem sound_next (sound : history.Sound) (change : Change) : (history.next change).Sound := by
  cases change with
  | newTemp stem type =>
    refine ⟨accounted_newTemp sound.accounted stem type, ?_⟩
    intro temp member
    refine (history.func.names.mem_used_fresh stem type).mpr ?_
    rcases List.mem_append.mp member with old | new
    · exact .inr (sound.handedOut temp old)
    · exact .inl (by rw [List.mem_singleton.mp new]; rfl)
  | lower =>
    refine ⟨FusedMultiplyAdd.accounted_lower sound.accounted, fun temp member => ?_⟩
    exact FusedMultiplyAdd.used_lowerBlocks history.func.blocks history.func.names
      (sound.handedOut temp member)
  | substitute name value => exact sound_left sound (left_substitute _ name value)
  | erase name => exact sound_left sound (left_erase _ name)
  | replace name value => exact sound_left sound (left_replace _ name value)
  | removeBound analysis remover => exact sound_left sound (left_removal _ analysis remover)

theorem sound_after (sound : history.Sound) (changes : List Change) :
    (history.after changes).Sound := by
  induction changes generalizing history with
  | nil => exact sound
  | cons change rest ih => exact ih (sound_next sound change)

/-- Names in use stay in use. -/
theorem used_next (history : History) (change : Change) :
    history.func.names.used ⊆ (history.next change).func.names.used := by
  cases change with
  | newTemp stem type =>
    exact fun _ known => (history.func.names.mem_used_fresh stem type).mpr (.inr known)
  | lower => exact FusedMultiplyAdd.used_lowerBlocks history.func.blocks history.func.names
  | substitute name value => exact (left_substitute history.func name value).used
  | erase name => exact (left_erase history.func name).used
  | replace name value => exact (left_replace history.func name value).used
  | removeBound analysis remover => exact (left_removal history.func analysis remover).used

theorem used_after (history : History) (changes : List Change) :
    history.func.names.used ⊆ (history.after changes).func.names.used := by
  induction changes generalizing history with
  | nil => exact List.Subset.refl _
  | cons change rest ih => exact List.Subset.trans (used_next history change) (ih _)

/-- No change defines a local temporary a second time. -/
theorem definesOnce_next (sound : history.Sound) (once : history.func.DefinesOnce)
    (change : Change) : (history.next change).func.DefinesOnce := by
  have fewer : ∀ now : Func, now.LeftOf history.func → now.DefinesOnce := fun now left name isLocal =>
    Nat.le_trans (left.definedTimes_le name) (once name isLocal)
  cases change with
  | newTemp stem type => exact once
  | lower => exact definesOnce_lower sound.accounted once
  | substitute name value => exact fewer _ (left_substitute _ name value)
  | erase name => exact fewer _ (left_erase _ name)
  | replace name value => exact fewer _ (left_replace _ name value)
  | removeBound analysis remover => exact fewer _ (left_removal _ analysis remover)

theorem definesOnce_after (sound : history.Sound) (once : history.func.DefinesOnce)
    (changes : List Change) : (history.after changes).func.DefinesOnce := by
  induction changes generalizing history with
  | nil => exact once
  | cons change rest ih => exact ih (sound_next sound change) (definesOnce_next sound once change)

end History

/-- Whatever happens to a linked function, all names of its parameters and definitions stay
in use. A new temporary is a local one whose name no parameter has, which nothing writes or
has written at any time before, and which was not handed out before. So if no local
temporary was defined twice in the beginning, none ever is. -/
theorem fresh_names_stay_fresh {function : Module.Function} {func : Func}
    (linked : ofModule function = .ok func) (before later : List Change) :
    let earlier := (History.start func).after before
    let now := earlier.after later
    now.func.Accounted ∧
      (∀ stem type, let temp := (now.func.newTemp stem type).1
        temp.name.isGlobal = false ∧ temp.type = type ∧
        (∀ param ∈ now.func.params, param.name ≠ temp.name) ∧
        (∀ target ∈ now.func.targets, target.name ≠ temp.name) ∧
        (∀ target ∈ earlier.func.targets, target.name ≠ temp.name) ∧
        ∀ given ∈ now.handedOut, given.name ≠ temp.name) ∧
      (func.DefinesOnce → now.func.DefinesOnce) := by
  intro earlier now
  have begun : (History.start func).Sound := ⟨accounted_ofModule linked, by simp [History.start]⟩
  have sound : earlier.Sound := History.sound_after begun before
  have sound' : now.Sound := History.sound_after sound later
  have known : ∀ temp ∈ earlier.func.params ++ earlier.func.targets,
      temp.name.spelling ∈ now.func.names.used := fun temp member =>
    History.used_after earlier later (accounted_iff.mp sound.accounted temp member)
  have known' := accounted_iff.mp sound'.accounted
  refine ⟨sound'.accounted, ?_, fun once => ?_⟩
  · intro stem type temp
    have unused : temp.name.spelling ∉ now.func.names.used :=
      now.func.names.fresh_unused stem type
    have apart : ∀ other : Temp, other.name.spelling ∈ now.func.names.used →
        other.name ≠ temp.name := fun other inUse same => unused (same ▸ inUse)
    refine ⟨rfl, rfl, ?_, ?_, ?_, ?_⟩
    · exact fun param member => apart param (known' param (List.mem_append_left _ member))
    · exact fun target member => apart target (known' target (List.mem_append_right _ member))
    · exact fun target member => apart target (known target (List.mem_append_right _ member))
    · exact fun given member => apart given (sound'.handedOut given member)
  · exact History.definesOnce_after sound (History.definesOnce_after begun once before) later

/-- Where names differ, none is defined twice. -/
private theorem definesOnce_of_nodup {func : Func}
    (distinct : ((func.params ++ func.targets).map (·.name)).Nodup) : func.DefinesOnce := by
  intro name _
  have counted := List.nodup_iff_count_le_one.mp distinct name
  rwa [List.count, List.countP_map] at counted

/-- A function whose parameter has the name that the first new temporary might have had. -/
def crowded : Module.Function where
  name := "crowded"
  returnType := .float
  params := [.ofLocal "t.1" .float]
  blocks := [
    { label := "entry", phis := [],
      instrs := [.call (some (.ofLocal "r" .float)) .float "llvm.fmuladd.f32"
        [(.float, .temp (.ofLocal "t.1" .float)), (.float, .temp (.ofLocal "t.1" .float)),
          (.float, .temp (.ofLocal "t.1" .float))]],
      terminator := .ret (some (.temp (.ofLocal "r" .float))) }]

/-- The product that a lowering made is erased, and its name is not given out again. -/
theorem crowded_names_stay_fresh : ∃ func, ofModule crowded = .ok func ∧ func.DefinesOnce ∧
    let lowered := (History.start func).after [.newTemp "t" .float, .lower]
    let now := lowered.after [.erase ⟨"fmul.3", false⟩]
    lowered.handedOut = [.ofLocal "t.2" .float] ∧
      lowered.func.targets = [.ofLocal "fmul.3" .float, .ofLocal "r" .float] ∧
      now.func.targets = [.ofLocal "r" .float] ∧ now.func.DefinesOnce ∧
      (now.func.newTemp "fmul" .float).1 = .ofLocal "fmul.4" .float ∧
      ∀ target ∈ lowered.func.targets, target.name ≠ (now.func.newTemp "fmul" .float).1.name := by
  obtain ⟨func, linked, distinct, given, made, left, fresh⟩ : ∃ func, ofModule crowded = .ok func ∧
      ((func.params ++ func.targets).map (·.name)).Nodup ∧
      let lowered := (History.start func).after [.newTemp "t" .float, .lower]
      let now := lowered.after [.erase ⟨"fmul.3", false⟩]
      lowered.handedOut = [.ofLocal "t.2" .float] ∧
        lowered.func.targets = [.ofLocal "fmul.3" .float, .ofLocal "r" .float] ∧
        now.func.targets = [.ofLocal "r" .float] ∧
        (now.func.newTemp "fmul" .float).1 = .ofLocal "fmul.4" .float :=
    ⟨_, rfl, by decide +kernel⟩
  have once := definesOnce_of_nodup distinct
  obtain ⟨-, new, kept⟩ := fresh_names_stay_fresh linked [.newTemp "t" .float, .lower]
    [.erase ⟨"fmul.3", false⟩]
  obtain ⟨-, -, -, -, unlike, -⟩ := new "fmul" .float
  exact ⟨func, linked, once, given, made, left, kept once, fresh, unlike⟩

end Func

end KernelGuard
