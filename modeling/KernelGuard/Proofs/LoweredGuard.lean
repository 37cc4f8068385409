import KernelGuard.Proofs.BoundRemoval
import KernelGuard.Proofs.FusedLowering
import KernelGuard.Proofs.GuardAgreement
import KernelGuard.Proofs.Readable
import KernelGuard.Proofs.RemovalSession

/-! Lowering and the analysis of the guard do not meet. A lowered call was no part of a
bound, and neither is the sum that takes its place; the product has a name that no condition
mentions with a definition. No block with a call is empty before or after. So the analysis
is the same on both sides, and removing bounds goes with lowering in either order. -/
namespace KernelGuard.FusedMultiplyAdd

variable {name : Name} {names : NameSupply} {func : Func}

/-! ## The same guard -/

/-- A call is no part of a bound. -/
private theorem mute_call (found : call? instr = some call) : instr.tells = false := by
  obtain ⟨_, _, _, _, rfl, -⟩ := call_eq_some_iff.mp found
  rfl

/-- Two definitions are one, or both are there and are no part of a bound. -/
private def Alternate (first second : Option Instr) : Prop :=
  first = second ∨ ∃ one other, first = some one ∧ second = some other ∧
    one.tells = false ∧ other.tells = false

private theorem find_writer_cons (name : Name) (instr : Instr) (rest : List Instr) :
    (instr :: rest).find? (·.writes name) =
      if instr.writes name then some instr else rest.find? (·.writes name) := by
  rw [List.find?_cons]
  cases instr.writes name <;> rfl

private theorem lowerInstrs_find (inUse : InUse names.used name) (instrs : List Instr) :
    Alternate ((lowerInstrs names instrs).value.1.find? (·.writes name))
      (instrs.find? (·.writes name)) := by
  induction instrs generalizing names with
  | nil => exact .inl rfl
  | cons instr rest ih =>
    cases found : call? instr with
    | none =>
      rw [lowerInstrs_kept found, find_writer_cons, find_writer_cons]
      split
      · exact .inl rfl
      · exact ih inUse
    | some call =>
      rw [lowerInstrs_call found]
      simp only [lowered, List.cons_append, List.nil_append, find_writer_cons,
        product_writes inUse, sum_writes found, Bool.false_eq_true, if_false]
      split
      · exact .inr ⟨_, _, rfl, rfl, rfl, mute_call found⟩
      · exact ih (inUse_fresh inUse "fmul" call.type)

private theorem Alternate.or (first : Alternate a b) (second : Alternate c d) :
    Alternate (a.or c) (b.or d) := by
  rcases first with rfl | ⟨one, other, rfl, rfl, mute, mute'⟩
  · cases a with
    | none => simpa using second
    | some => exact .inl rfl
  · exact .inr ⟨one, other, rfl, rfl, mute, mute'⟩

private theorem lowerBlocks_find (inUse : InUse names.used name) (blocks : List Block) :
    Alternate ((lowerBlocks names blocks).value.1.findSome? fun block =>
        block.body.find? (·.writes name))
      (blocks.findSome? fun block => block.body.find? (·.writes name)) := by
  induction blocks generalizing names with
  | nil => exact .inl rfl
  | cons block rest ih =>
    have later := ih (inUse_wider inUse (used_lowerInstrs block.instrs names))
    have body : ∀ block : Block, block.body.find? (·.writes name) =
        ((block.phis.map Instr.phi).find? (·.writes name)).or
          (block.instrs.find? (·.writes name)) := fun _ => List.find?_append
    have split : ∀ (block : Block) (rest : List Block),
        (block :: rest).findSome? (fun block => block.body.find? (·.writes name)) =
          (block.body.find? (·.writes name)).or
            (rest.findSome? fun block => block.body.find? (·.writes name)) := by
      intro block rest
      rw [List.findSome?_cons]
      cases block.body.find? (·.writes name) <;> rfl
    rw [lowerBlocks_value, split, split, body, body]
    exact .or (.or (.inl rfl) (lowerInstrs_find inUse block.instrs)) later

/-- What can be part of a bound after lowering was there before. -/
private theorem mem_of_tells {instrs : List Instr} (tells : instr.tells = true)
    (member : instr ∈ (lowerInstrs names instrs).value.1) : instr ∈ instrs := by
  induction instrs generalizing names with
  | nil => exact member
  | cons first rest ih =>
    cases found : call? first with
    | none =>
      rw [lowerInstrs_kept found] at member
      rcases List.mem_cons.mp member with rfl | later
      · exact List.mem_cons_self
      · exact List.mem_cons_of_mem _ (ih later)
    | some call =>
      rw [lowerInstrs_call found] at member
      simp only [lowered, List.cons_append, List.nil_append, List.mem_cons] at member
      rcases member with rfl | rfl | later
      · cases tells
      · cases tells
      · exact List.mem_cons_of_mem _ (ih later)

private theorem mem_blocks_of_tells {blocks : List Block} {block : Block}
    (tells : instr.tells = true) (member : block ∈ (lowerBlocks names blocks).value.1)
    (inside : instr ∈ block.body) : ∃ before ∈ blocks, instr ∈ before.body := by
  induction blocks generalizing names with
  | nil => cases member
  | cons first rest ih =>
    rw [lowerBlocks_value] at member
    rcases List.mem_cons.mp member with rfl | later
    · refine ⟨first, List.mem_cons_self, ?_⟩
      rcases List.mem_append.mp inside with phi | plain
      · exact List.mem_append_left _ phi
      · exact List.mem_append_right _ (mem_of_tells tells plain)
    · obtain ⟨before, original, body⟩ := ih later
      exact ⟨before, List.mem_cons_of_mem _ original, body⟩

/-- Every temporary keeps its definition, or has none that is part of a bound either way. -/
private theorem definition_lower (accounted : func.Accounted) (name : Name) :
    (lower func).value.1.definition? name = func.definition? name ∨
      Mute ((lower func).value.1.definition? name) ∧ Mute (func.definition? name) := by
  by_cases inUse : InUse func.names.used name
  · rcases lowerBlocks_find inUse func.blocks with same | ⟨one, other, found, found', mute⟩
    · exact .inl same
    · refine .inr ⟨?_, ?_⟩
      · rintro instr defined
        cases found.symm.trans defined
        exact mute.1
      · rintro instr defined
        cases found'.symm.trans defined
        exact mute.2
  · have undefined : ∀ block ∈ func.blocks, ∀ instr ∈ block.body, instr.writes name = false := by
      intro block member instr inside
      by_contra writes
      obtain ⟨target, written, rfl⟩ := Instr.writes_iff.mp (eq_true_of_ne_false writes)
      exact inUse (.inr (accounted.targets block member instr inside target written))
    refine .inr ⟨?_, ?_⟩
    · intro instr defined
      obtain ⟨block, member, inside, writes⟩ := Func.definition_inside defined
      by_contra tells
      obtain ⟨before, original, body⟩ := mem_blocks_of_tells (by simpa using tells) member inside
      rw [undefined before original instr body] at writes
      cases writes
    · intro instr defined
      obtain ⟨block, member, inside, writes⟩ := Func.definition_inside defined
      rw [undefined block member instr inside] at writes
      cases writes

/-- A block that ends is a lone jump after lowering exactly when it was one before. -/
private theorem outline_lower {block : Block} (ended : ∃ terminator, block.terminator = some terminator)
    (names : NameSupply) :
    Block.outline { block with instrs := (lowerInstrs names block.instrs).value.1 } = block.outline := by
  obtain ⟨terminator, ends⟩ := ended
  have empty : (lowerInstrs names block.instrs).value.1.length = 0 ↔ block.instrs.length = 0 := by
    cases block.instrs with
    | nil => rfl
    | cons instr rest =>
      cases found : call? instr with
      | none => simp [lowerInstrs_kept found]
      | some call => simp [lowerInstrs_call found, lowered]
  have size : ∀ instrs, ({ block with instrs } : Block).size = 1 ↔
      block.phis.length = 0 ∧ instrs.length = 0 := by
    intro instrs
    simp only [Block.size, Block.code, Block.body, ends, List.length_append, List.length_map,
      Option.toList_some, List.length_singleton]
    omega
  have alone : ({ block with instrs := (lowerInstrs names block.instrs).value.1 } : Block).size = 1 ↔
      block.size = 1 := by
    rw [size, empty, ← size block.instrs]
  simp only [Block.outline, Block.isForwarding, alone]

/-- A linked function is analysed like the one that lowering makes of it. -/
theorem agree_lower (accounted : func.Accounted) (linked : func.IsLinked) :
    Func.Agree (lower func).value.1 func where
  params := rfl
  outlines := by
    have general : ∀ (blocks : List Block) (names : NameSupply),
        (∀ block ∈ blocks, ∃ terminator, block.terminator = some terminator) →
          (lowerBlocks names blocks).value.1.map Block.outline = blocks.map Block.outline := by
      intro blocks names ended
      induction blocks generalizing names with
      | nil => rfl
      | cons block rest ih =>
        rw [lowerBlocks_value, List.map_cons, List.map_cons,
          outline_lower (ended block List.mem_cons_self),
          ih _ fun block member => ended block (List.mem_cons_of_mem _ member)]
    exact general func.blocks func.names linked.ended
  definitions := definition_lower accounted

/-! ## Folding beside lowering -/

private theorem call_mapOperands (f : Value → Value) (instr : Instr) :
    call? (instr.mapOperands f) =
      (call? instr).map fun call => { call with a := f call.a, b := f call.b, c := f call.c } := by
  cases instr with
  | call target type callee args =>
    rcases target with _ | target
    · rfl
    rcases args with _ | ⟨⟨_, a⟩, _ | ⟨⟨_, b⟩, _ | ⟨⟨_, c⟩, _ | ⟨_, _⟩⟩⟩⟩
    case call.some.cons.cons.cons.nil =>
      simp only [Instr.mapOperands, List.map_cons, List.map_nil, call?]
      split <;> rfl
    all_goals rfl
  | _ => rfl

/-- What lowering makes of a substitution, as long as the products are left alone. -/
private theorem lowerInstrs_substitute (inUse : InUse names.used name) (value : Value)
    (instrs : List Instr) :
    (lowerInstrs names (instrs.map (Instr.mapOperands (Value.substitute name value)))).value =
      ((lowerInstrs names instrs).value.1.map (Instr.mapOperands (Value.substitute name value)),
        (lowerInstrs names instrs).value.2) := by
  induction instrs generalizing names with
  | nil => rfl
  | cons instr rest ih =>
    have mapped := call_mapOperands (Value.substitute name value) instr
    rw [List.map_cons]
    cases found : call? instr with
    | none =>
      rw [found, Option.map_none] at mapped
      rw [lowerInstrs_kept found, lowerInstrs_kept mapped, ih inUse, List.map_cons]
    | some call =>
      rw [found, Option.map_some] at mapped
      have product : Value.substitute name value (.temp (names.fresh "fmul" call.type).1) =
          .temp (names.fresh "fmul" call.type).1 := by
        have apart := fresh_ne_used inUse "fmul" call.type
        simp [Value.substitute, Value.name?, Value.temp?, apart]
      rw [lowerInstrs_call found, lowerInstrs_call mapped,
        ih (inUse_fresh inUse "fmul" call.type)]
      simp [lowered, Instr.mapOperands, product]

/-- No call that is lowered writes a temporary. -/
def Unfused (name : Name) (block : Block) : Prop :=
  ∀ instr ∈ block.instrs, instr.writes name = true → call? instr = none

private theorem lowerInstrs_filter (inUse : InUse names.used name) {instrs : List Instr}
    (unfused : ∀ instr ∈ instrs, instr.writes name = true → call? instr = none) :
    (lowerInstrs names (instrs.filter (!·.writes name))).value =
      ((lowerInstrs names instrs).value.1.filter (!·.writes name),
        (lowerInstrs names instrs).value.2) := by
  induction instrs generalizing names with
  | nil => rfl
  | cons instr rest ih =>
    have later := ih inUse fun other member => unfused other (List.mem_cons_of_mem _ member)
    cases found : call? instr with
    | none =>
      rw [lowerInstrs_kept found]
      by_cases writes : instr.writes name = true
      · simp [writes, later]
      · simp [writes, lowerInstrs_kept found, later]
    | some call =>
      have kept : instr.writes name = false := by
        by_contra writes
        rw [unfused instr List.mem_cons_self (by simpa using writes)] at found
        cases found
      have later' := ih (inUse_fresh inUse "fmul" call.type) fun other member =>
        unfused other (List.mem_cons_of_mem _ member)
      rw [List.filter_cons_of_pos (by simpa using kept), lowerInstrs_call found,
        lowerInstrs_call found, later']
      simp [lowered, product_writes inUse, sum_writes found, kept]

private theorem lowerBlocks_substitute (inUse : InUse names.used name) (value : Value)
    (blocks : List Block) :
    (lowerBlocks names (blocks.map (Block.mapOperands (Value.substitute name value)))).value =
      ((lowerBlocks names blocks).value.1.map (Block.mapOperands (Value.substitute name value)),
        (lowerBlocks names blocks).value.2) := by
  induction blocks generalizing names with
  | nil => rfl
  | cons block rest ih =>
    have first : (lowerInstrs names
        (block.mapOperands (Value.substitute name value)).instrs).value = _ :=
      lowerInstrs_substitute inUse value block.instrs
    have later := ih (inUse_wider inUse (used_lowerInstrs block.instrs names))
    rw [List.map_cons, lowerBlocks_value, lowerBlocks_value, first, later]
    rfl

private theorem lowerBlocks_erased (inUse : InUse names.used name) {blocks : List Block}
    (unfused : ∀ block ∈ blocks, Unfused name block) :
    (lowerBlocks names (Func.erased name blocks)).value =
      (Func.erased name (lowerBlocks names blocks).value.1, (lowerBlocks names blocks).value.2) := by
  induction blocks generalizing names with
  | nil => rfl
  | cons block rest ih =>
    have defines : ({ block with instrs := (lowerInstrs names block.instrs).value.1 } :
        Block).defines name = block.defines name := by
      simp only [Block.defines, Block.body, List.any_append, lowerInstrs_writes inUse]
    rw [lowerBlocks_value, Func.erased_cons, Func.erased_cons, defines]
    split
    · have first : (lowerInstrs names (block.withoutDefinition name).instrs).value = _ :=
        lowerInstrs_filter inUse (unfused block List.mem_cons_self)
      rw [lowerBlocks_value, first]
      rfl
    · rw [lowerBlocks_value, ih (inUse_wider inUse (used_lowerInstrs block.instrs names))
        fun other member => unfused other (List.mem_cons_of_mem _ member)]

/-- A temporary that can be folded before lowering or after it: its name is in use, and no
call that is lowered writes it. -/
structure Foldable (func : Func) (name : Name) : Prop where
  inUse : InUse func.names.used name
  unfused : ∀ block ∈ func.blocks, Unfused name block

/-- Folding a temporary and lowering go in either order. -/
theorem lower_folded (foldable : Foldable func name) :
    (lower (func.folded name)).value.1 = (lower func).value.1.folded name := by
  have defines := defines_lower foldable.inUse
  by_cases defined : func.defines name = true
  · have erased := lowerBlocks_erased foldable.inUse foldable.unfused
    have both := lowerBlocks_substitute foldable.inUse (.bool true) (Func.erased name func.blocks)
    rw [erased] at both
    rw [Func.folded_of_defined defined, Func.folded_of_defined (defines.trans defined)]
    simp only [lower, Logged.value_bind, Logged.value_pure, both]
  · have undefined : func.defines name = false := eq_false_of_ne_true defined
    rw [Func.folded_of_undefined undefined, Func.folded_of_undefined (defines.trans undefined)]

/-- Every block of a folded function is one of before, with instructions gone and operands
changed. -/
private theorem foldable_folded (foldable : Foldable func name) (other : Name) :
    Foldable (func.folded other) name := by
  by_cases defined : func.defines other = true
  · rw [Func.folded_of_defined defined]
    refine ⟨foldable.inUse, ?_⟩
    have kept : ∀ blocks : List Block, (∀ block ∈ blocks, Unfused name block) →
        ∀ block ∈ Func.erased other blocks, Unfused name block := by
      intro blocks unfused
      induction blocks with
      | nil => simp [Func.erased, Func.eraseIn]
      | cons first rest ih =>
        obtain ⟨here, later⟩ := List.forall_mem_cons.mp unfused
        rw [Func.erased_cons]
        split
        · exact List.forall_mem_cons.mpr
            ⟨fun instr member => here instr (List.mem_of_mem_filter member), later⟩
        · exact List.forall_mem_cons.mpr ⟨here, ih later⟩
    intro block member instr inside writes
    obtain ⟨source, original, rfl⟩ := List.mem_map.mp member
    obtain ⟨before, among, rfl⟩ := List.mem_map.mp inside
    rw [call_mapOperands, kept _ foldable.unfused source original before among
      (by simpa using writes), Option.map_none]
  · rwa [Func.folded_of_undefined (eq_false_of_ne_true defined)]

/-! ## Removing beside lowering -/

/-- Two sessions with the same analysis, one beside a function and one beside what lowering
makes of it. Every comparison that may be folded can be folded on both sides. -/
private structure Beside (session lowered : Session) : Prop where
  analysis : lowered.analysis = session.analysis
  func : lowered.func = (lower session.func).value.1
  foldable : ∀ dimension fact, session.analysis.usable? dimension = some fact →
    Foldable session.func fact.compare.name

private theorem beside_next {session lowered : Session} (beside : Beside session lowered)
    (remover : Remover) :
    Beside (session.next (.remove remover)) (lowered.next (.remove remover)) := by
  have keeps := (session.keeps_next (.remove remover)).usable
  obtain ⟨analysis, func⟩ := lowered
  obtain ⟨rfl, rfl, foldable⟩ := beside
  rcases session.idle_or_due remover with idle | ⟨fact, usable, unspent⟩
  · have idle' : Session.removal ⟨session.analysis, (lower session.func).value.1⟩ remover = _ :=
      Session.removal_of_idle idle
    simp only [Session.next, Session.removal_of_idle idle, idle']
    exact ⟨rfl, rfl, foldable⟩
  · have due : Session.removal ⟨session.analysis, (lower session.func).value.1⟩ remover = _ :=
      Session.removal_of_due usable unspent
    simp only [Session.next, Session.removal_of_due usable unspent, due] at keeps ⊢
    refine ⟨rfl, (lower_folded (foldable _ fact usable)).symm, fun dimension other kept => ?_⟩
    rw [keeps] at kept
    exact foldable_folded (foldable dimension other kept) fact.compare.name

private theorem beside_after {session lowered : Session} (beside : Beside session lowered)
    (removers : List Remover) :
    Beside (session.after (removers.map .remove)) (lowered.after (removers.map .remove)) := by
  induction removers generalizing session lowered with
  | nil => exact beside
  | cons remover rest ih => exact ih (beside_next beside remover)

/-- The comparison of a usable fact can be folded where nothing else writes its temporary. -/
private theorem foldable_of_usable {region : Region} {postDominates : Nat → Nat → Bool}
    {symbols : IndexSymbols} {dimension : Dimension} {fact : BoundFact}
    (accounted : func.Accounted) (single : ∀ name, (func.definitions name).length ≤ 1)
    (usable : (Analysis.ofRegion func region postDominates symbols).value.usable? dimension =
      some fact) : Foldable func fact.compare.name := by
  obtain ⟨-, -, definition, defined, bounds⟩ :=
    Condition.kept_fact_bounds (Analysis.kept_of_usable usable)
  obtain ⟨block, member, inside, writes⟩ := Func.definition_inside defined
  have one : (func.definitions fact.compare.name).length = 1 := by
    have few := single fact.compare.name
    have some' : 0 < (func.definitions fact.compare.name).length :=
      List.length_pos_of_mem (List.mem_filter.mpr
        ⟨List.mem_flatMap.mpr ⟨block, member, inside⟩, writes⟩)
    omega
  constructor
  case inUse =>
    obtain ⟨target, written, same⟩ := Instr.writes_iff.mp writes
    exact .inr (same ▸ accounted.targets block member definition inside target written)
  case unfused =>
    intro other among instr plain overwrites
    rw [BoundRemoval.only_definition one defined other among instr
      (List.mem_append_right _ plain) overwrites]
    generalize fact.bound = bound at bounds
    cases bounds with
    | less => rfl

/-- What is read from text writes local temporaries only. -/
private theorem locals_ofText {text : String} {module : Module} {function : Module.Function}
    (read : Module.ofText text = .ok module) (member : function ∈ module.functions)
    (linked : Func.ofModule function = .ok func) {name : Name}
    (defined : func.defines name = true) : name.isGlobal = false := by
  obtain ⟨block, among, instr, inside, writes⟩ := Func.defines_iff.mp defined
  obtain ⟨target, written, rfl⟩ := Instr.writes_iff.mp writes
  obtain ⟨-, -, rfl⟩ := Func.ofModule_parts linked
  obtain ⟨origin, original, body⟩ := Func.body_of_rebuilt among
  obtain ⟨source, block', rfl⟩ := List.mem_map.mp original
  obtain ⟨phis, instrs⟩ := Module.ofText_targets read function member source block'
  rw [body] at inside
  rcases List.mem_append.mp inside with phi | plain
  · obtain ⟨first, chosen, rfl⟩ := List.mem_map.mp phi
    cases written
    exact (phis first chosen).isLocal
  · exact (instrs instr plain target written).isLocal

/-- How often temporaries are defined shows at those that are written. -/
private theorem definitions_le_one
    (written : ∀ target ∈ (func.blocks.flatMap Block.body).filterMap Instr.target?,
      target.name = name → (func.definitions target.name).length ≤ 1) :
    (func.definitions name).length ≤ 1 := by
  cases defined : func.definitions name with
  | nil => exact Nat.zero_le 1
  | cons instr rest =>
    have member : instr ∈ func.definitions name := defined ▸ List.mem_cons_self
    obtain ⟨inside, writes⟩ := List.mem_filter.mp member
    obtain ⟨target, found, rfl⟩ := Instr.writes_iff.mp writes
    exact defined ▸ written target (List.mem_filterMap.mpr ⟨instr, inside, found⟩) rfl

/-- A linked function and the one that lowering makes of it have the same regions, and
the same analysis of each of them: status, guard, bounds and facts. Where no temporary is
written twice, any removals leave the same function whether lowering comes before them or
after. What is read from text writes local temporaries only. -/
theorem lowering_keeps_analysis {function : Module.Function} {func : Func}
    (linked : Func.ofModule function = .ok func) (symbols : IndexSymbols) :
    let result := (lower func).value.1
    let analyse := fun func region =>
      Session.start func region (func.domTree .backward).dominates symbols
    (∀ labels, Region.ofLabels result labels = Region.ofLabels func labels) ∧
      (∀ region, (analyse result region).analysis = (analyse func region).analysis) ∧
      ((∀ name, (func.definitions name).length ≤ 1) →
        ∀ (region : Region) (removers : List Remover),
          ((analyse result region).after (removers.map .remove)).func =
            (lower ((analyse func region).after (removers.map .remove)).func).value.1) ∧
      ∀ text module, Module.ofText text = .ok module → function ∈ module.functions →
        ∀ name, func.defines name = true → name.isGlobal = false := by
  intro result analyse
  have accounted := Func.accounted_ofModule linked
  have agree : result.Agree func := agree_lower accounted (Func.linked_ofModule linked)
  have same : ∀ region, (analyse result region).analysis = (analyse func region).analysis := by
    intro region
    simp only [analyse, Session.start, agree.domTree_eq, agree.analysis]
  refine ⟨agree.region, same, ?_, ?_⟩
  · intro single region removers
    have beside : Beside (analyse func region) (analyse result region) :=
      ⟨same region, rfl, fun _ _ usable => foldable_of_usable accounted single usable⟩
    exact (beside_after beside removers).func
  · intro text module read member name defined
    exact locals_ofText read member linked defined

/-- A kernel with a bound before a call that is lowered. -/
def guardedFused : Module.Function where
  name := "blend"
  returnType := .void
  params := [.ofLocal "n" .i32, .ofLocal "k" .float, .ofLocal "out" .ptr]
  blocks := [
    { label := "entry", phis := [],
      instrs := [
        .load (.ofLocal "x" .i32) .i32 (.temp (.ofGlobal "_local_id_x")),
        .arith (.ofLocal "i" .i32) .add .i32 (.temp (.ofLocal "x" .i32)) (.int 0),
        .compare (.ofLocal "c" .i1) .icmp .ult .i32 (.temp (.ofLocal "i" .i32))
          (.temp (.ofLocal "n" .i32))],
      terminator := .branch .i1 (.temp (.ofLocal "c" .i1)) "body" "exit" },
    { label := "body", phis := [],
      instrs := [
        .call (some (.ofLocal "r" .float)) .float "llvm.fmuladd.f32"
          [(.float, .temp (.ofLocal "k" .float)), (.float, .temp (.ofLocal "k" .float)),
            (.float, .temp (.ofLocal "k" .float))],
        .store (.temp (.ofLocal "r" .float)) (.temp (.ofLocal "out" .ptr))],
      terminator := .jump "exit" },
    { label := "exit", phis := [], instrs := [], terminator := .ret none }]

/-- The lowered kernel has the bound of the original one, and removing the bound leaves the same
function before lowering and after. -/
theorem guardedFused_either_way : ∃ func, Func.ofModule guardedFused = .ok func ∧
    let result := (lower func).value.1
    let began := Session.start func (Region.whole func) (func.domTree .backward).dominates .standard
    let began' := Session.start result (Region.whole func) (result.domTree .backward).dominates
      .standard
    result ≠ func ∧
      began'.analysis.upperBound? .x = some (.temp (.ofLocal "n" .i32)) ∧
      (began'.after [.remove .x]).func = (lower (began.after [.remove .x]).func).value.1 := by
  obtain ⟨func, linked, changed, bound, written⟩ : ∃ func,
      Func.ofModule guardedFused = .ok func ∧ (lower func).value.1 ≠ func ∧
        (Session.start func (Region.whole func) (func.domTree .backward).dominates
          .standard).analysis.upperBound? .x = some (.temp (.ofLocal "n" .i32)) ∧
        ∀ target ∈ (func.blocks.flatMap Block.body).filterMap Instr.target?,
          (func.definitions target.name).length ≤ 1 :=
    ⟨_, rfl, by decide +kernel, by cbv, by decide +kernel⟩
  have single : ∀ name, (func.definitions name).length ≤ 1 :=
    fun name => definitions_le_one fun target member _ => written target member
  obtain ⟨-, same, either, -⟩ := lowering_keeps_analysis linked .standard
  refine ⟨func, linked, changed, ?_, either single (Region.whole func) [.x]⟩
  exact (congrArg (·.upperBound? .x) (same (Region.whole func))).trans bound

/-- A kernel whose guard is a global that a call to be lowered writes as well. -/
def sharedGlobal : Module.Function where
  name := "blend"
  returnType := .void
  params := [.ofLocal "n" .i32, .ofLocal "k" .float]
  blocks := [
    { label := "entry", phis := [],
      instrs := [
        .load (.ofLocal "x" .i32) .i32 (.temp (.ofGlobal "_local_id_x")),
        .arith (.ofLocal "i" .i32) .add .i32 (.temp (.ofLocal "x" .i32)) (.int 0),
        .compare ⟨⟨"c", true⟩, .i1⟩ .icmp .ult .i32 (.temp (.ofLocal "i" .i32))
          (.temp (.ofLocal "n" .i32)),
        .call (some ⟨⟨"c", true⟩, .float⟩) .float "llvm.fmuladd.f32"
          [(.float, .temp (.ofLocal "k" .float)), (.float, .temp (.ofLocal "k" .float)),
            (.float, .temp (.ofLocal "k" .float))]],
      terminator := .branch .i1 (.temp ⟨⟨"c", true⟩, .i1⟩) "body" "exit" },
    { label := "body", phis := [], instrs := [.call none .void "work" []],
      terminator := .jump "exit" },
    { label := "exit", phis := [], instrs := [], terminator := .ret none }]

/-- Where a global is written twice it matters which comes first: removing the bound takes the
call away, so that there is nothing to lower, but of a call that was lowered before it leaves the
product behind. -/
theorem sharedGlobal_not_either_way : ∃ func, Func.ofModule sharedGlobal = .ok func ∧
    (∀ name, name.isGlobal = false → (func.definitions name).length ≤ 1) ∧
    let result := (lower func).value.1
    let began := Session.start func (Region.whole func) (func.domTree .backward).dominates .standard
    let began' := Session.start result (Region.whole result) (result.domTree .backward).dominates
      .standard
    (began'.after [.remove .x]).func.text ≠
      (lower (began.after [.remove .x]).func).value.1.text := by
  obtain ⟨func, linked, written, apart⟩ : ∃ func, Func.ofModule sharedGlobal = .ok func ∧
      (∀ target ∈ (func.blocks.flatMap Block.body).filterMap Instr.target?,
        target.name.isGlobal = false → (func.definitions target.name).length ≤ 1) ∧
      ((Session.start (lower func).value.1 (Region.whole (lower func).value.1)
        ((lower func).value.1.domTree .backward).dominates .standard).after
          [.remove .x]).func.text ≠
        (lower ((Session.start func (Region.whole func) (func.domTree .backward).dominates
          .standard).after [.remove .x]).func).value.1.text :=
    ⟨_, rfl, by decide +kernel, by cbv⟩
  exact ⟨func, linked, fun name isLocal => definitions_le_one fun target member same =>
    written target member (same ▸ isLocal), apart⟩

end KernelGuard.FusedMultiplyAdd
