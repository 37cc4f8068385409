import KernelGuard.Flow.Program
import KernelGuard.Proofs.LinkedFlow
import KernelGuard.Proofs.Readable
import KernelGuard.Proofs.WrittenPlaces

/-! Which fault is reported of a text. A text that the grammar does not fit is a misfit. Then
the first entry in written order that offends decides, by its first operand without a value
or, if all have one, by the types of its instruction. Then the first function decides whose
labels cannot be linked. Nothing else goes wrong. -/
namespace KernelGuard

/-- The first of a list that is at fault, and its fault. -/
def FirstAtFault {α ε : Type} (faulty : α → ε → Prop) (list : List α) (fault : ε) : Prop :=
  ∃ front item back, list = front ++ item :: back ∧
    (∀ earlier ∈ front, ∀ other, ¬faulty earlier other) ∧ faulty item fault

/-- Where the labels of a function come from and go to. -/
structure Linkage where
  name : String
  labels : List Label
  targets : List Label

/-- Why a function cannot be linked: a block repeats the label of an earlier one, or else a
target is the label of no block. The first one in written order counts. -/
inductive Linkage.Faulty (linkage : Linkage) : Fault → Prop
  | repeated (written : linkage.labels = front ++ label :: back) (distinct : front.Nodup)
      (again : label ∈ front) : Faulty linkage (.duplicateLabel label linkage.name)
  | missing (distinct : linkage.labels.Nodup) (written : linkage.targets = front ++ label :: back)
      (found : ∀ earlier ∈ front, earlier ∈ linkage.labels) (unknown : label ∉ linkage.labels) :
      Faulty linkage (.undefinedLabel label)

def Module.Function.linkage (function : Module.Function) : Linkage where
  name := function.name
  labels := function.blocks.map (·.label)
  targets := function.blocks.flatMap (·.terminator.targets)

namespace Draft

def Terminator.targets : Terminator → List Label
  | jump target => [target]
  | branch _ onTrue onFalse => [onTrue, onFalse]
  | ret _ => []

def Function.linkage (function : Function) : Linkage where
  name := function.name
  labels := function.blocks.map (·.label)
  targets := function.blocks.flatMap (·.terminator.item.targets)

/-- The functions of a draft, in written order. -/
def functions (draft : Draft) : List Function :=
  List.filterMap (fun | .function found => some found | .global _ => none) draft

/-- An operand that has no value at its type. -/
def OperandOffends (pair : Ty × Operand) (offence : Offence) : Prop :=
  ∃ complaint, pair.2.item.value pair.1 = .error complaint ∧ offence = ⟨pair.2.mark, complaint⟩

/-- The instruction that an entry makes if all its operands have values, and its place. -/
def Entry.instr? : Entry → Option (Marked KernelGuard.Instr)
  | .initial .. => none
  | .phi found => found.item.meaning.toOption.map fun meaning => ⟨found.mark, .phi meaning⟩
  | .instr found => found.item.meaning.toOption.map (⟨found.mark, ·⟩)
  | .terminator found => found.item.meaning.toOption.map (⟨found.mark, ·⟩)

/-- What is wrong with an entry: its first operand without a value, or an instruction whose
types do not fit together. -/
inductive Entry.Offends (entry : Entry) : Offence → Prop
  | operand (first : FirstAtFault OperandOffends entry.operands offence) : Offends entry offence
  | illTyped (makes : entry.instr? = some made) (ill : made.item.wellTyped = false) :
      Offends entry ⟨made.mark, .illTyped made.item.text⟩

end Draft

/-- The fault that is to be reported of a text. -/
inductive FaultOf (text : List Char) : Fault → Prop
  | misfit (refused : Draft.ofText? text = none) : FaultOf text (.grammar (Expectation.misfit text))
  | offence (fits : Draft.ofText? text = some draft)
      (first : FirstAtFault Draft.Entry.Offends draft.entries offence) :
      FaultOf text (.complaint (.ofMark text offence.mark) offence.item)
  | label (fits : Draft.ofText? text = some draft)
      (clean : ∀ entry ∈ draft.entries, ∀ offence, ¬entry.Offends offence)
      (first : FirstAtFault Linkage.Faulty (draft.functions.map Draft.Function.linkage) fault) :
      FaultOf text fault

/-! ## Attempts in a row -/

section
variable {α β ε : Type}

/-- How an attempt ends, whatever comes of it. -/
def trial (attempt : Except ε α) : Except ε Unit := attempt.map fun _ => ()

@[simp] theorem trial_ok (value : α) : trial (.ok value : Except ε α) = .ok () := rfl

@[simp] theorem trial_error (fault : ε) : trial (.error fault : Except ε α) = .error fault := rfl

@[simp] theorem ok_bind (value : α) (next : α → Except ε β) :
    ((.ok value : Except ε α) >>= next) = next value := rfl

@[simp] theorem error_bind (fault : ε) (next : α → Except ε β) :
    ((.error fault : Except ε α) >>= next) = .error fault := rfl

theorem trial_eq_error_iff {attempt : Except ε α} {fault : ε} :
    trial attempt = .error fault ↔ attempt = .error fault := by
  cases attempt <;> simp

/-- What is made of a result does not matter. -/
theorem trial_return (attempt : Except ε α) (f : α → β) :
    trial (attempt >>= fun value => pure (f value)) = trial attempt := by
  cases attempt <;> rfl

/-- An attempt ends as its parts do, if those end alike whatever comes of the first. -/
theorem trial_bind {attempt : Except ε α} {next : α → Except ε β} {second : Except ε Unit}
    (same : ∀ value, attempt = .ok value → trial (next value) = second) :
    trial (attempt >>= next) = trial attempt >>= fun _ => second := by
  cases attempt with
  | error fault => rfl
  | ok value => exact same value rfl

theorem trial_mapM (list : List α) (f : α → Except ε β) :
    trial (list.mapM f) = forM list fun a => trial (f a) := by
  induction list with
  | nil => rfl
  | cons a list ih =>
    rw [List.mapM_cons, List.forM_cons, ← ih]
    refine trial_bind fun b _ => ?_
    cases list.mapM f <;> rfl

private theorem forM_flatMap (list : List α) (g : α → List β) (f : β → Except ε Unit) :
    forM (list.flatMap g) f = forM list fun a => forM (g a) f := by
  induction list with
  | nil => rfl
  | cons a list ih => rw [List.flatMap_cons, List.forM_append, List.forM_cons, ih]

private theorem forM_map (list : List α) (g : α → β) (f : β → Except ε Unit) :
    forM (list.map g) f = forM list fun a => f (g a) := by
  rw [List.map_eq_flatMap, forM_flatMap]
  simp

private theorem forM_singleton (a : α) (f : α → Except ε Unit) : forM [a] f = f a := by
  rw [List.forM_cons, List.forM_nil]
  cases f a <;> rfl

/-- Attempts in a row fail by the first one that fails. -/
theorem forM_eq_error_iff {f : α → Except ε Unit} {faulty : α → ε → Prop}
    (each : ∀ a fault, f a = .error fault ↔ faulty a fault) {list : List α} {fault : ε} :
    forM list f = .error fault ↔ FirstAtFault faulty list fault := by
  induction list with
  | nil =>
    refine ⟨fun failed => (by cases failed), ?_⟩
    rintro ⟨front, item, back, written, -⟩
    simp at written
  | cons a list ih =>
    rw [List.forM_cons]
    cases tried : f a with
    | error own =>
      constructor
      · intro failed
        cases failed
        exact ⟨[], a, list, rfl, by simp, (each a fault).mp tried⟩
      · rintro ⟨front, item, back, written, clean, bad⟩
        cases front with
        | nil =>
          cases written
          rw [(each a fault).mpr bad] at tried
          cases tried
          rfl
        | cons first front =>
          cases written
          exact absurd ((each a own).mp tried) (clean a List.mem_cons_self own)
    | ok none =>
      have sound : ∀ other, ¬faulty a other := fun other bad => by
        rw [(each a other).mpr bad] at tried
        cases tried
      refine Iff.trans ih ⟨?_, ?_⟩
      · rintro ⟨front, item, back, rfl, clean, bad⟩
        exact ⟨a :: front, item, back, rfl, List.forall_mem_cons.mpr ⟨sound, clean⟩, bad⟩
      · rintro ⟨front, item, back, written, clean, bad⟩
        cases front with
        | nil =>
          cases written
          exact absurd bad (sound fault)
        | cons first front =>
          cases written
          exact ⟨front, item, back, rfl, (List.forall_mem_cons.mp clean).2, bad⟩

/-- Attempts in a row succeed if none of them fails. -/
theorem forM_eq_ok_iff {f : α → Except ε Unit} {faulty : α → ε → Prop}
    (each : ∀ a fault, f a = .error fault ↔ faulty a fault) {list : List α} :
    forM list f = .ok () ↔ ∀ a ∈ list, ∀ fault, ¬faulty a fault := by
  induction list with
  | nil => simp [pure, Except.pure]
  | cons a list ih =>
    rw [List.forM_cons, List.forall_mem_cons, ← ih]
    cases tried : f a with
    | error own =>
      refine ⟨fun done => (by cases done), fun ⟨clean, _⟩ => ?_⟩
      exact absurd ((each a own).mp tried) (clean own)
    | ok none =>
      refine (and_iff_right fun fault bad => ?_).symm
      rw [(each a fault).mpr bad] at tried
      cases tried

end

namespace Draft

/-! ## Entries -/

/-- The values of some operands are looked for one after the other. -/
def valued (operands : List (Ty × Operand)) : Except Offence Unit :=
  forM operands fun pair => trial (Operand.value pair.1 pair.2)

private theorem operand_value_eq_error_iff (pair : Ty × Operand) (offence : Offence) :
    trial (Operand.value pair.1 pair.2) = .error offence ↔ OperandOffends pair offence := by
  unfold OperandOffends Operand.value
  cases pair.2.item.value pair.1 with
  | ok value => simp
  | error complaint => simp [eq_comm]

private theorem trial_typed (typed : TypedOperand) :
    trial typed.value = trial (Operand.value typed.pair.1 typed.pair.2) := rfl

/-- A phi has a meaning unless an operand has no value. -/
private theorem trial_phi (phi : Phi) : trial phi.meaning = valued phi.operands := by
  rw [Phi.meaning, trial_return, trial_mapM, valued, Phi.operands, forM_map]
  exact congrArg _ (funext fun source => trial_return _ _)

/-- An instruction has a meaning unless an operand has no value. -/
private theorem trial_instr (instr : Instr) : trial instr.meaning = valued instr.operands := by
  cases instr with
  | arith target op type lhs rhs =>
    simp only [Instr.meaning, valued, Instr.operands, List.forM_cons, List.forM_nil]
    cases Operand.value type lhs <;> cases Operand.value type rhs <;> rfl
  | compare target kind predicate type lhs rhs =>
    simp only [Instr.meaning, valued, Instr.operands, List.forM_cons, List.forM_nil]
    cases Operand.value type lhs <;> cases Operand.value type rhs <;> rfl
  | convert target op operand result =>
    simp only [Instr.meaning, valued, Instr.operands, List.forM_cons, List.forM_nil, ← trial_typed]
    cases operand.value <;> rfl
  | load target type address =>
    simp only [Instr.meaning, valued, Instr.operands, List.forM_cons, List.forM_nil, ← trial_typed]
    cases address.value <;> rfl
  | elementPtr target type address offset =>
    simp only [Instr.meaning, valued, Instr.operands, List.forM_cons, List.forM_nil, ← trial_typed]
    cases address.value <;> cases offset.value <;> rfl
  | store value address =>
    simp only [Instr.meaning, valued, Instr.operands, List.forM_cons, List.forM_nil, ← trial_typed]
    cases value.value <;> cases address.value <;> rfl
  | call target type callee args =>
    rw [Instr.meaning, trial_return, trial_mapM, valued, Instr.operands, forM_map]
    exact congrArg _ (funext fun arg => trial_return _ _)

private theorem trial_terminator (terminator : Terminator) :
    trial terminator.meaning = valued terminator.operands := by
  cases terminator with
  | jump target => rfl
  | branch condition onTrue onFalse =>
    simp only [Terminator.meaning, valued, Terminator.operands, List.forM_cons, List.forM_nil,
      ← trial_typed]
    cases condition.value <;> rfl
  | ret operand =>
    cases operand with
    | none => rfl
    | some operand =>
      simp only [Terminator.meaning, valued, Terminator.operands, Option.toList_some,
        List.map_cons, List.map_nil, List.forM_cons, List.forM_nil, ← trial_typed]
      cases operand.value <;> rfl

/-- An entry is checked: its operands, and then the instruction that they make. -/
def Entry.check (entry : Entry) : Except Offence Unit := do
  valued entry.operands
  forM entry.instr?.toList fun made => trial (checked made.mark made.item)

private theorem checked_eq_error_iff {mark : Nat} {instr : KernelGuard.Instr} {offence : Offence} :
    checked mark instr = .error offence ↔
      instr.wellTyped = false ∧ offence = ⟨mark, .illTyped instr.text⟩ := by
  unfold checked
  by_cases typed : instr.wellTyped = true
  · simp [typed]
  · simp [typed, eq_comm]

/-- Something that is checked behind its operands, as an entry. -/
private theorem check_of_meaning {α : Type} {entry : Entry} {mark : Nat} {meaning : Except Offence α}
    {instr : α → KernelGuard.Instr} (operands : trial meaning = valued entry.operands)
    (makes : entry.instr? = meaning.toOption.map fun value => ⟨mark, instr value⟩) :
    entry.check = trial (meaning >>= fun value => checked mark (instr value)) := by
  rw [Entry.check, ← operands, makes]
  cases meaning with
  | error offence => rfl
  | ok value =>
    simp only [trial_ok, Except.toOption, Option.map_some, Option.toList_some, List.forM_cons,
      List.forM_nil, ok_bind]
    cases checked mark (instr value) <;> rfl

private theorem check_phi (found : Marked Phi) : (Entry.phi found).check =
    trial (found.item.meaning >>= fun meaning => checked found.mark (.phi meaning)) :=
  check_of_meaning (trial_phi found.item) rfl

private theorem check_instr (found : Marked Instr) : (Entry.instr found).check =
    trial (found.item.meaning >>= fun meaning => checked found.mark meaning) :=
  check_of_meaning (trial_instr found.item) rfl

private theorem check_terminator (found : Marked Terminator) : (Entry.terminator found).check =
    trial (found.item.meaning >>= fun meaning => checked found.mark meaning) :=
  check_of_meaning (trial_terminator found.item) rfl

/-- An entry makes an instruction only if its operands have values. -/
private theorem valued_of_instr {entry : Entry} {made : Marked KernelGuard.Instr}
    (makes : entry.instr? = some made) :
    valued entry.operands = .ok () := by
  have value : ∀ {α : Type} {meaning : Except Offence α} {f : α → Marked KernelGuard.Instr},
      meaning.toOption.map f = some made → trial meaning = .ok () := by
    intro α meaning f found
    cases meaning with
    | error offence => cases found
    | ok value => rfl
  cases entry with
  | initial type operand => cases makes
  | phi found => exact (trial_phi found.item).symm.trans (value makes)
  | instr found => exact (trial_instr found.item).symm.trans (value makes)
  | terminator found => exact (trial_terminator found.item).symm.trans (value makes)

/-- The check of an entry finds what is wrong with it. -/
theorem check_eq_error_iff (entry : Entry) (offence : Offence) :
    entry.check = .error offence ↔ entry.Offends offence := by
  have operands : ∀ offence, valued entry.operands = .error offence ↔
      FirstAtFault OperandOffends entry.operands offence := fun offence =>
    forM_eq_error_iff operand_value_eq_error_iff
  constructor
  · intro failed
    unfold Entry.check at failed
    cases tried : valued entry.operands with
    | error own =>
      rw [tried] at failed
      cases failed
      exact .operand ((operands _).mp tried)
    | ok none =>
      rw [tried] at failed
      cases makes : entry.instr? with
      | none =>
        rw [makes] at failed
        cases failed
      | some instr =>
        have refused : trial (checked instr.mark instr.item) = .error offence := by
          rw [makes, Option.toList_some] at failed
          cases check : checked instr.mark instr.item with
          | error own =>
            simp only [List.forM_cons, check] at failed
            exact failed
          | ok passed =>
            simp only [List.forM_cons, List.forM_nil, check] at failed
            cases failed
        obtain ⟨ill, rfl⟩ := checked_eq_error_iff.mp (trial_eq_error_iff.mp refused)
        exact .illTyped makes ill
  · rintro (first | ⟨makes, ill⟩)
    · rw [Entry.check, (operands _).mpr first]
      rfl
    · rename_i instr
      have refused : checked instr.mark instr.item = .error ⟨instr.mark, .illTyped instr.item.text⟩ :=
        checked_eq_error_iff.mpr ⟨ill, rfl⟩
      rw [Entry.check, valued_of_instr makes, makes, Option.toList_some, List.forM_cons, refused]
      rfl

/-! ## Drafts -/

private theorem trial_block (block : Block) :
    trial block.meaning = forM block.entries Entry.check := by
  have phis : trial (block.phis.mapM fun phi => do
      let meaning ← phi.item.meaning
      let _ ← checked phi.mark (.phi meaning)
      return meaning) = forM (block.phis.map Entry.phi) Entry.check := by
    rw [trial_mapM, forM_map]
    refine congrArg _ (funext fun phi => ?_)
    rw [check_phi]
    cases phi.item.meaning with
    | error offence => rfl
    | ok meaning => exact trial_return _ _
  have instrs : trial (block.instrs.mapM fun instr => do
      let meaning ← instr.item.meaning
      checked instr.mark meaning) = forM (block.instrs.map Entry.instr) Entry.check := by
    rw [trial_mapM, forM_map]
    exact congrArg _ (funext fun instr => (check_instr instr).symm)
  have terminator : trial (block.terminator.item.meaning >>= checked block.terminator.mark) =
      forM [Entry.terminator block.terminator] Entry.check := by
    rw [forM_singleton, check_terminator]
  rw [Block.entries, List.forM_append, List.forM_append, ← phis, ← instrs, ← terminator,
    bind_assoc, Block.meaning]
  refine trial_bind fun _ _ => trial_bind fun _ _ => ?_
  rw [← bind_assoc]
  exact trial_return _ _

private theorem trial_function (function : Function) :
    trial function.meaning = forM function.entries Entry.check := by
  rw [Function.entries, forM_flatMap, ← funext trial_block, ← trial_mapM]
  unfold Function.meaning
  cases function.blocks.mapM Block.meaning <;> rfl

private theorem trial_global (global : Global) :
    trial global.meaning = forM global.entries Entry.check := by
  unfold Global.meaning Global.entries
  cases global.initial with
  | none => rfl
  | some operand =>
    have none : (Entry.initial global.type operand).instr? = none := rfl
    simp only [Option.toList_some, List.map_cons, List.map_nil, List.forM_cons, List.forM_nil,
      Entry.check, valued, Entry.operands, none, Option.toList_none]
    cases Operand.value global.type operand <;> rfl

private theorem trial_extend (item : Item) (module : Module) :
    trial (item.extend module) = forM item.entries Entry.check := by
  cases item with
  | global found =>
    rw [Item.entries, ← trial_global]
    exact trial_return _ _
  | function found =>
    rw [Item.entries, ← trial_function]
    exact trial_return _ _

/-- A draft has a meaning unless an entry offends, and is then refused for the first one. -/
theorem trial_meaning (draft : Draft) : trial draft.meaning = forM draft.entries Entry.check := by
  have general : ∀ (items : List Item) (module : Module),
      trial (items.foldlM Item.extend module) =
        forM items fun item => forM item.entries Entry.check := by
    intro items
    induction items with
    | nil => exact fun _ => rfl
    | cons item items ih =>
      intro module
      rw [List.foldlM_cons, List.forM_cons, ← trial_extend item module]
      exact trial_bind fun next _ => ih next
  rw [entries, forM_flatMap]
  exact general draft ⟨[], []⟩

end Draft

/-! ## Linking -/

namespace Func

private theorem firstRepeat_eq_some_iff {seen labels : List Label} {label : Label} :
    firstRepeat seen labels = some label ↔ ∃ front back, labels = front ++ label :: back ∧
      front.Nodup ∧ (∀ earlier ∈ front, earlier ∉ seen) ∧ (label ∈ front ∨ label ∈ seen) := by
  induction labels generalizing seen with
  | nil => simp [firstRepeat]
  | cons first rest ih =>
    unfold firstRepeat
    split
    · rename_i known
      constructor
      · rintro ⟨⟩
        exact ⟨[], rest, rfl, List.nodup_nil, by simp, .inr known⟩
      · rintro ⟨front, back, written, -, unseen, -⟩
        cases front with
        | nil =>
          cases written
          rfl
        | cons other front =>
          cases written
          exact absurd known (unseen _ List.mem_cons_self)
    · rename_i fresh
      rw [ih]
      constructor
      · rintro ⟨front, back, rfl, distinct, unseen, again⟩
        refine ⟨first :: front, back, rfl, List.nodup_cons.mpr ⟨?_, distinct⟩,
          List.forall_mem_cons.mpr ⟨fresh, ?_⟩, ?_⟩
        · exact fun later => unseen first later List.mem_cons_self
        · exact fun earlier member known => unseen earlier member (List.mem_cons_of_mem _ known)
        · rcases again with inside | known
          · exact .inl (List.mem_cons_of_mem _ inside)
          · rcases List.mem_cons.mp known with rfl | known
            · exact .inl List.mem_cons_self
            · exact .inr known
      · rintro ⟨front, back, written, distinct, unseen, again⟩
        cases front with
        | nil =>
          cases written
          exact absurd (again.resolve_left (by simp)) fresh
        | cons other front =>
          cases written
          obtain ⟨notLater, distinct⟩ := List.nodup_cons.mp distinct
          refine ⟨front, back, rfl, distinct, fun earlier member known => ?_, ?_⟩
          · rcases List.mem_cons.mp known with rfl | known
            · exact notLater member
            · exact unseen earlier (List.mem_cons_of_mem _ member) known
          · rcases again with inside | known
            · rcases List.mem_cons.mp inside with rfl | inside
              · exact .inr List.mem_cons_self
              · exact .inl inside
            · exact .inr (List.mem_cons_of_mem _ known)

private theorem resolve_missing (blocks : List Block) (requests : List (Nat × Label)) :
    (Edge.resolve blocks requests).2 =
      (requests.map Prod.snd).find? fun label => label ∉ blocks.map (·.label) := by
  induction requests with
  | nil => rfl
  | cons request rest ih =>
    obtain ⟨source, label⟩ := request
    have place : Edge.placeOf? blocks label = none ↔ label ∉ blocks.map (·.label) := by
      simp [Edge.placeOf?, List.findIdx?_eq_none_iff]
    rw [Edge.resolve, List.map_cons, List.find?_cons]
    cases found : Edge.placeOf? blocks label with
    | none => rw [decide_eq_true (place.mp found)]
    | some target =>
      have known : label ∈ blocks.map (·.label) := by
        by_contra unknown
        rw [place.mpr unknown] at found
        cases found
      rw [decide_eq_false (not_not_intro known)]
      exact ih

private theorem requests_targets (blocks : List Block) :
    (Edge.requests blocks).map Prod.snd = blocks.flatMap Block.targets := by
  have shifted : ∀ place, (blocks.zipIdx place).flatMap (fun entry =>
      (entry.1.targets.map (entry.2, ·)).map Prod.snd) = blocks.flatMap Block.targets := by
    induction blocks with
    | nil => exact fun _ => rfl
    | cons block rest ih =>
      intro place
      rw [List.zipIdx_cons, List.flatMap_cons, List.flatMap_cons, ih, List.map_map]
      exact congrArg (· ++ _) (List.map_id _)
  rw [Edge.requests, List.map_flatMap]
  exact shifted 0

private theorem firstRepeat_nil_iff {labels : List Label} {label : Label} :
    firstRepeat [] labels = some label ↔
      ∃ front back, labels = front ++ label :: back ∧ front.Nodup ∧ label ∈ front := by
  simp [firstRepeat_eq_some_iff]

private theorem firstRepeat_nil_none_iff {labels : List Label} :
    firstRepeat [] labels = none ↔ labels.Nodup := by
  refine ⟨fun unrepeated => (firstRepeat_none unrepeated).1, fun distinct => ?_⟩
  by_contra repeated
  obtain ⟨label, again⟩ := Option.ne_none_iff_exists'.mp repeated
  obtain ⟨front, back, rfl, -, inside⟩ := firstRepeat_nil_iff.mp again
  exact (List.nodup_append.mp distinct).2.2 label inside label List.mem_cons_self rfl

/-- Linking looks for a repeated label first, then for a target without a block. -/
private theorem ofModule_error_cases {function : Module.Function} {fault : Fault} :
    ofModule function = .error fault ↔
      (∃ label, firstRepeat [] function.linkage.labels = some label ∧
        .duplicateLabel label function.name = fault) ∨
      firstRepeat [] function.linkage.labels = none ∧
        ∃ label, (function.linkage.targets.find? fun label => label ∉ function.linkage.labels) =
          some label ∧ .undefinedLabel label = fault := by
  have missing : (Edge.rebuild (function.blocks.map blockOf)).2 =
      function.linkage.targets.find? fun label => label ∉ function.linkage.labels := by
    rw [Edge.rebuild, resolve_missing, requests_targets, List.flatMap_map, List.map_map]
    rfl
  have labels : function.blocks.map (·.label) = function.linkage.labels := rfl
  unfold ofModule
  rw [labels]
  cases firstRepeat [] function.linkage.labels with
  | some label => simp
  | none =>
    rw [← missing]
    dsimp only
    generalize Edge.rebuild (function.blocks.map blockOf) = rebuilt
    obtain ⟨linked, lost⟩ := rebuilt
    cases lost <;> simp

/-- Linking fails for the first repeated label, or else for the first unknown target. -/
theorem ofModule_eq_error_iff {function : Module.Function} {fault : Fault} :
    ofModule function = .error fault ↔ function.linkage.Faulty fault := by
  rw [ofModule_error_cases]
  constructor
  · rintro (⟨label, again, rfl⟩ | ⟨unrepeated, label, lost, rfl⟩)
    · obtain ⟨front, back, written, distinct, inside⟩ := firstRepeat_nil_iff.mp again
      exact .repeated written distinct inside
    · obtain ⟨unknown, front, back, written, found⟩ := List.find?_eq_some_iff_append.mp lost
      exact .missing (firstRepeat_nil_none_iff.mp unrepeated) written (by simpa using found)
        (by simpa using unknown)
  · rintro (⟨written, distinct, inside⟩ | ⟨distinct, written, found, unknown⟩)
    · exact .inl ⟨_, firstRepeat_nil_iff.mpr ⟨_, _, written, distinct, inside⟩, rfl⟩
    · exact .inr ⟨firstRepeat_nil_none_iff.mpr distinct, _, List.find?_eq_some_iff_append.mpr
        ⟨by simpa using unknown, _, _, written, by simpa using found⟩, rfl⟩

end Func

/-! ## From a draft to its functions -/

theorem firstAtFault_map_iff {α β ε : Type} {faulty : β → ε → Prop} {g : α → β} {list : List α}
    {fault : ε} : FirstAtFault faulty (list.map g) fault ↔
      FirstAtFault (fun a => faulty (g a)) list fault := by
  constructor
  · rintro ⟨front, item, back, written, clean, bad⟩
    obtain ⟨front, rest, rfl, rfl, behind⟩ := List.map_eq_append_iff.mp written
    obtain ⟨item, back, rfl, rfl, rfl⟩ := List.map_eq_cons_iff.mp behind
    exact ⟨front, item, back, rfl, fun a member => clean _ (List.mem_map_of_mem member), bad⟩
  · rintro ⟨front, item, back, rfl, clean, bad⟩
    exact ⟨front.map g, g item, back.map g, by simp, List.forall_mem_map.mpr clean, bad⟩

namespace Draft

private theorem terminator_targets {draft : Terminator} {instr : KernelGuard.Instr}
    (read : draft.meaning = .ok instr) : instr.targets = draft.targets := by
  cases draft with
  | jump target =>
    cases read
    rfl
  | branch condition onTrue onFalse =>
    obtain ⟨value, -, read⟩ := bind_gives read
    cases read
    rfl
  | ret operand =>
    cases operand with
    | none =>
      cases read
      rfl
    | some operand =>
      obtain ⟨value, -, read⟩ := bind_gives read
      cases read
      rfl

private theorem block_linkage {draft : Block} {block : Module.Block}
    (read : draft.meaning = .ok block) :
    block.label = draft.label ∧ block.terminator.targets = draft.terminator.item.targets := by
  obtain ⟨phis, -, read⟩ := bind_gives read
  obtain ⟨instrs, -, read⟩ := bind_gives read
  obtain ⟨meaning, meant, read⟩ := bind_gives read
  obtain ⟨terminator, passed, read⟩ := bind_gives read
  cases read
  obtain ⟨rfl, -⟩ := checked_gives passed
  exact ⟨rfl, terminator_targets meant⟩

/-- Linking a function as meant is linking it as spelled. -/
private theorem function_linkage {draft : Function} {function : Module.Function}
    (read : draft.meaning = .ok function) : function.linkage = draft.linkage := by
  obtain ⟨blocks, blocksRead, read⟩ := bind_gives read
  cases read
  have labels := mapM_keeps (fun _ _ given => (block_linkage given).1) blocksRead
  have targets := mapM_keeps (fun _ _ given => (block_linkage given).2) blocksRead
  rw [Module.Function.linkage, Function.linkage, labels, List.flatMap_def, targets,
    ← List.flatMap_def]

private theorem extended_linkages {items : List Item} {start module : Module}
    (read : items.foldlM Item.extend start = .ok module) :
    module.functions.map Module.Function.linkage =
      start.functions.map Module.Function.linkage ++
        (functions items).map Function.linkage := by
  induction items generalizing start with
  | nil =>
    cases read
    exact (List.append_nil _).symm
  | cons item items ih =>
    rw [List.foldlM_cons] at read
    obtain ⟨next, step, read⟩ := bind_gives read
    rw [ih read]
    cases item with
    | global written =>
      obtain ⟨meaning, -, step⟩ := bind_gives step
      cases step
      rfl
    | function written =>
      obtain ⟨meaning, meant, step⟩ := bind_gives step
      cases step
      simp [functions, function_linkage meant]

theorem linkages_of_meaning {draft : Draft} {module : Module} (read : draft.meaning = .ok module) :
    module.functions.map Module.Function.linkage = draft.functions.map Function.linkage :=
  extended_linkages read

theorem meaning_eq_error_iff {draft : Draft} {offence : Offence} :
    draft.meaning = .error offence ↔ FirstAtFault Entry.Offends draft.entries offence := by
  rw [← trial_eq_error_iff, trial_meaning, forM_eq_error_iff check_eq_error_iff]

theorem meaning_ok_iff {draft : Draft} :
    (∃ module, draft.meaning = .ok module) ↔
      ∀ entry ∈ draft.entries, ∀ offence, ¬entry.Offends offence := by
  rw [← forM_eq_ok_iff check_eq_error_iff, ← trial_meaning]
  cases draft.meaning <;> simp

end Draft

namespace Program

theorem ofModule_eq_error_iff {module : Module} {fault : Fault} :
    ofModule module = .error fault ↔
      FirstAtFault Linkage.Faulty (module.functions.map Module.Function.linkage) fault := by
  rw [← trial_eq_error_iff, ofModule, trial_return, trial_mapM, firstAtFault_map_iff]
  exact forM_eq_error_iff fun function fault =>
    trial_eq_error_iff.trans Func.ofModule_eq_error_iff

theorem ofText_eq_error_iff {text : String} {fault : Fault} :
    ofText text = .error fault ↔ FaultOf text.toList fault := by
  unfold ofText Module.ofText
  cases fits : Draft.ofText? text.toList with
  | none =>
    constructor
    · rintro ⟨⟩
      exact .misfit fits
    · rintro (_ | ⟨fits', -⟩ | ⟨fits', -⟩)
      · rfl
      · rw [fits] at fits'
        cases fits'
      · rw [fits] at fits'
        cases fits'
  | some draft =>
    dsimp only
    cases meant : draft.meaning with
    | error offence =>
      have first := Draft.meaning_eq_error_iff.mp meant
      constructor
      · rintro ⟨⟩
        exact .offence fits first
      · rintro (refused | ⟨fits', first'⟩ | ⟨fits', clean, -⟩)
        · rw [fits] at refused
          cases refused
        · rw [fits] at fits'
          cases fits'
          rw [Draft.meaning_eq_error_iff.mpr first'] at meant
          cases meant
          rfl
        · rw [fits] at fits'
          cases fits'
          obtain ⟨module, meant'⟩ := Draft.meaning_ok_iff.mpr clean
          rw [meant'] at meant
          cases meant
    | ok module =>
      rw [ok_bind, ofModule_eq_error_iff, Draft.linkages_of_meaning meant]
      constructor
      · exact .label fits (Draft.meaning_ok_iff.mp ⟨module, meant⟩)
      · rintro (refused | ⟨fits', first'⟩ | ⟨fits', -, first⟩)
        · rw [fits] at refused
          cases refused
        · rw [fits] at fits'
          cases fits'
          rw [Draft.meaning_eq_error_iff.mpr first'] at meant
          cases meant
        · rw [fits] at fits'
          cases fits'
          exact first

/-- A text is a program or the one fault that is to be reported of it is reported. The places
of faults are right: everything that is checked stands in the text where it is said to, and
what is checked first stands first. There is no fault of a text that the grammar fits but is in
the wrong shape, since a draft cannot be: see `message_ne_misshape`. -/
theorem first_fault_reported (text : String) :
    (∀ fault, ofText text = .error fault ↔ FaultOf text.toList fault) ∧
    ((∃ program, ofText text = .ok program) ↔ ∀ fault, ¬FaultOf text.toList fault) ∧
    ∀ draft, Draft.ofText? text.toList = some draft →
      (∀ site ∈ draft.entries.flatMap Draft.Entry.sites, ∃ before after,
        text.toList = before ++ after ∧
          Position.ofMark text.toList site.mark = .behind before ∧
          Lexeme.Solid after ∧ site.ReadFrom after) ∧
      (draft.entries.flatMap Draft.Entry.sites).Pairwise fun first second =>
        second.mark ≤ first.mark := by
  refine ⟨fun fault => ofText_eq_error_iff, ?_, fun draft fits => ?_⟩
  · simp only [← ofText_eq_error_iff]
    cases ofText text <;> simp
  · obtain ⟨stand, inOrder⟩ := Draft.sites_ofText? fits
    refine ⟨fun site member => ?_, inOrder⟩
    obtain ⟨before, after, whole, length, solid, reads⟩ := stand site member
    refine ⟨before, after, whole, ?_, solid, reads⟩
    rw [Position.ofMark, whole, List.length_append, ← length, Nat.add_sub_cancel,
      List.take_left]

/-- A text with a literal out of range, a repeated label and an unknown target. -/
def mistakenText : String :=
  "define i32 @f() \x7b a: ret i32 3000000000 a: br label %b \x7d"

theorem mistaken_literal_reported : FaultOf mistakenText.toList
    (.complaint ⟨1, 30⟩ (.invalidLiteral .i32 "3000000000")) :=
  ((first_fault_reported mistakenText).1 _).mp (by decide +kernel)

end Program

/-! ## What cannot be reported -/

/-- Faults in the shape of a text that the grammar fits: a part that is missing, or an operator
that is not known. A tree of plain rules has room for them. A draft has none, as each construct
has all its parts, a block its terminator and a global its name, and types and operators are
read by their tables. -/
inductive Misshape where
  | missingPart
  | missingType
  | malformedCall
  | namelessGlobal
  | missingTerminator (label : Label)
  | unknownOperator (position : Position) (operator : String)

/-- The wording of such a fault, behind what all faults of texts begin with. -/
def Misshape.reason : Misshape → String
  | missingPart => "unexpected end of input"
  | missingType => "expected a type"
  | malformedCall => "malformed call"
  | namelessGlobal => "global without a name"
  | missingTerminator label => "block %" ++ label ++ " has no terminator"
  | unknownOperator position operator =>
    position.text ++ ": unknown operator '" ++ operator ++ "'"

private theorem number_text (n : Nat) :
    (toString n).toList ≠ [] ∧ ∀ c ∈ (toString n).toList, c.isDigit = true := by
  have digits : (toString n).toList = Nat.toDigits 10 n := by
    simp [toString, Nat.repr_eq_ofList_toDigits]
  rw [digits]
  exact ⟨Nat.toDigits_ne_nil, fun _ => Nat.isDigit_of_mem_toDigits (by decide) (by decide)⟩

/-- A misfit is worded behind a margin. -/
private theorem misfit_text (misfit : Misfit) : ∃ rest, misfit.text.toList = ' ' :: rest := by
  obtain ⟨some', -⟩ := number_text misfit.position.line
  obtain ⟨c, more, written⟩ := List.exists_cons_of_ne_nil some'
  rw [Misfit.text, String.intercalate_cons_cons]
  simp only [written, List.map_cons, String.toList_append, String.toList_ofList, List.cons_append]
  exact ⟨_, rfl⟩

/-- A position is worded by digits with a colon between them. -/
private theorem position_text (position : Position) :
    (∃ c rest, position.text.toList = c :: rest ∧ c.isDigit = true) ∧
      ∀ c ∈ position.text.toList, c ≠ ' ' := by
  obtain ⟨some', digits⟩ := number_text position.line
  obtain ⟨c, more, written⟩ := List.exists_cons_of_ne_nil some'
  have apart : ∀ c : Char, c.isDigit = true → c ≠ ' ' := by
    rintro c digit rfl
    cases digit
  simp only [Position.text, String.toList_append, List.forall_mem_append]
  refine ⟨⟨c, _, by rw [written]; rfl, digits c (written ▸ List.mem_cons_self)⟩,
    ⟨fun c member => apart c (digits c member), by simp⟩,
    fun c member => apart c ((number_text position.column).2 c member)⟩

/-- What stands behind a position is told by the first blank. -/
private theorem behind_position {first second : Position} {one other : List Char}
    (same : first.text.toList ++ ':' :: ' ' :: one = second.text.toList ++ ':' :: ' ' :: other) :
    one = other := by
  have cut (position : Position) (rest : List Char) :
      (position.text.toList ++ ':' :: ' ' :: rest).dropWhile (· ≠ ' ') = ' ' :: rest := by
    rw [List.dropWhile_append_of_pos fun c member => by
      simpa using (position_text position).2 c member]
    rfl
  have rests := (cut first one).symm.trans ((congrArg _ same).trans (cut second other))
  exact (List.cons.inj rests).2

/-- No misshape is worded behind a margin or like a repeated label, and only one behind a
position. -/
private theorem reason_head {misshape : Misshape} {c : Char} {rest : List Char}
    (written : misshape.reason.toList = c :: rest) : c ≠ ' ' ∧ c ≠ 'l' ∧
      (c.isDigit = true → ∃ position operator, misshape = .unknownOperator position operator) := by
  cases misshape with
  | unknownOperator position operator =>
    obtain ⟨⟨d, more, digits, digit⟩, -⟩ := position_text position
    rw [Misshape.reason, String.toList_append, String.toList_append, String.toList_append, digits,
      List.cons_append] at written
    obtain ⟨rfl, -⟩ := List.cons.inj written
    refine ⟨?_, ?_, fun _ => ⟨position, operator, rfl⟩⟩ <;> (rintro rfl; cases digit)
  | missingTerminator label =>
    rw [Misshape.reason, String.toList_append, String.toList_append] at written
    obtain ⟨rfl, -⟩ := List.cons.inj written
    exact ⟨by decide, by decide, nofun⟩
  | missingPart | missingType | malformedCall | namelessGlobal =>
    obtain ⟨rfl, -⟩ := List.cons.inj written
    exact ⟨by decide, by decide, nofun⟩

/-- Complaints are told from an unknown operator by their third letters. -/
private theorem third_letter (cause : Complaint) : cause.message.toList[2]? ≠ some 'k' := by
  cases cause with
  | invalidLiteral type literal =>
    change ("invalid " ++ type.text ++ " literal '" ++ literal ++ "'").toList[2]? ≠ some 'k'
    simp
  | unexpectedOperand type =>
    change ("unexpected " ++ type.text ++ " operand").toList[2]? ≠ some 'k'
    simp
  | illTyped instr =>
    change ("ill-typed instruction '" ++ instr ++ "'").toList[2]? ≠ some 'k'
    simp

private theorem complaint_ne_misshape (position : Position) (cause : Complaint)
    (misshape : Misshape) : position.text ++ ": " ++ cause.message ≠ misshape.reason := by
  intro same
  obtain ⟨⟨c, rest, written, digit⟩, -⟩ := position_text position
  have whole : misshape.reason.toList =
      position.text.toList ++ ':' :: ' ' :: cause.message.toList := by
    rw [← same, String.toList_append, String.toList_append, List.append_assoc]
    rfl
  obtain ⟨other, operator, rfl⟩ :=
    (reason_head (whole.trans (by rw [written]; rfl))).2.2 digit
  have twice : position.text.toList ++ ':' :: ' ' :: cause.message.toList =
      other.text.toList ++ ':' :: ' ' :: ("unknown operator '" ++ operator ++ "'").toList := by
    rw [← whole]
    simp [Misshape.reason]
  refine third_letter cause ?_
  rw [behind_position twice]
  simp

/-- A fault of a text is a misfit, a complaint about an item or one about labels. -/
theorem FaultOf.kinds {text : List Char} {fault : Fault} (reported : FaultOf text fault) :
    (∃ misfit, fault = .grammar misfit) ∨ (∃ position cause, fault = .complaint position cause) ∨
      (∃ label function, fault = .duplicateLabel label function) ∨
      ∃ label, fault = .undefinedLabel label := by
  cases reported with
  | misfit => exact .inl ⟨_, rfl⟩
  | offence => exact .inr (.inl ⟨_, _, rfl⟩)
  | label fits clean first =>
    obtain ⟨front, linkage, back, -, -, faulty⟩ := first
    cases faulty with
    | repeated => exact .inr (.inr (.inl ⟨_, _, rfl⟩))
    | missing => exact .inr (.inr (.inr ⟨_, rfl⟩))

/-- Nothing that is reported of a text is worded like a fault in the shape of one that the grammar
fits, whatever else is wrong with the text. -/
theorem Program.message_ne_misshape {text : String} {fault : Fault}
    (failed : ofText text = .error fault) (misshape : Misshape) :
    fault.message ≠ "llvm syntax error: " ++ misshape.reason := by
  rcases (ofText_eq_error_iff.mp failed).kinds with
    ⟨misfit, rfl⟩ | ⟨position, cause, rfl⟩ | ⟨label, function, rfl⟩ | ⟨label, rfl⟩
  · change "llvm syntax error: " ++ misfit.text ≠ _
    rw [ne_eq, String.append_right_inj]
    intro same
    obtain ⟨rest, written⟩ := misfit_text misfit
    exact (reason_head (same ▸ written)).1 rfl
  · change "llvm syntax error: " ++ position.text ++ ": " ++ cause.message ≠ _
    rw [String.append_assoc, String.append_assoc, ne_eq, String.append_right_inj,
      ← String.append_assoc]
    exact complaint_ne_misshape position cause misshape
  · change "llvm syntax error: label '%" ++ label ++ "' defined twice in '@" ++ function ++ "'" ≠ _
    have cut : "llvm syntax error: label '%" = "llvm syntax error: " ++ "label '%" := by decide
    rw [cut, String.append_assoc, String.append_assoc, String.append_assoc, String.append_assoc,
      ne_eq, String.append_right_inj]
    intro same
    obtain ⟨rest, written⟩ : ∃ rest, misshape.reason.toList = 'l' :: rest := by
      rw [← same, String.toList_append]
      exact ⟨_, rfl⟩
    exact (reason_head written).2.1 rfl
  · change "undefined label '%" ++ label ++ "'" ≠ _
    intro same
    have first := congrArg (·.toList[0]?) same
    simp at first

end KernelGuard
