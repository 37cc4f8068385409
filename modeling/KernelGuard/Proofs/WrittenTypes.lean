import KernelGuard.Proofs.FirstFault
import KernelGuard.Proofs.InstrReadBack

/-! Types that are written in front of operands. A module holds each such operand at the type
that was written, except that a global is an address whatever is written. Where an instruction
compares the two types, a global at another type is refused. The other places forget what was
written: a global is accepted there at any type, and printed as an address. -/
namespace KernelGuard

/-- A place for an operand behind a type of its own. -/
inductive Slot where
  | converted | loadAddress | elementAddress | elementOffset | argument | stored | storeAddress
  | condition | returned
deriving DecidableEq, Repr

/-- Whether the type check looks at what was written in front of the operand, or asks of its
value what no address is. -/
def Slot.isCompared : Slot → Bool
  | converted | elementOffset | argument | condition => true
  | loadAddress | elementAddress | stored | storeAddress | returned => false

/-- What an instruction holds where operands are written behind types. -/
def Instr.held : Instr → List (Slot × Value)
  | convert _ _ _ operand _ => [(.converted, operand)]
  | load _ _ address => [(.loadAddress, address)]
  | store value address => [(.stored, value), (.storeAddress, address)]
  | elementPtr _ _ address offset => [(.elementAddress, address), (.elementOffset, offset)]
  | call _ _ _ args => args.map fun arg => (.argument, arg.2)
  | branch _ condition _ _ => [(.condition, condition)]
  | ret value => value.toList.map (.returned, ·)
  | arith .. | compare .. | phi .. | jump .. => []

/-- All instructions of a module, in written order. -/
def Module.code (module : Module) : List Instr :=
  module.functions.flatMap fun function =>
    function.blocks.flatMap fun block => (Func.blockOf block).code

namespace Draft

def Instr.written : Instr → List (Slot × TypedOperand)
  | convert _ _ operand _ => [(.converted, operand)]
  | load _ _ address => [(.loadAddress, address)]
  | store value address => [(.stored, value), (.storeAddress, address)]
  | elementPtr _ _ address offset => [(.elementAddress, address), (.elementOffset, offset)]
  | call _ _ _ args => args.map (.argument, ·)
  | arith .. | compare .. => []

def Terminator.written : Terminator → List (Slot × TypedOperand)
  | jump _ => []
  | branch condition _ _ => [(.condition, condition)]
  | ret value => value.toList.map (.returned, ·)

/-- The operands of an entry that are written behind types. -/
def Entry.written : Entry → List (Slot × TypedOperand)
  | .initial .. | .phi _ => []
  | .instr found => found.item.written
  | .terminator found => found.item.written

/-- The type that an operand has in a module: the written one, or that of addresses for a
global. -/
def TypedOperand.heldType (typed : TypedOperand) : Ty :=
  match typed.operand.item with
  | .globalName _ => .ptr
  | _ => typed.type

/-- Whether an operand has another type in a module than is written. -/
def TypedOperand.isStray (typed : TypedOperand) : Bool := typed.heldType != typed.type

/-! ## One operand -/

theorem isStray_iff {operand : TypedOperand} : operand.isStray = true ↔
    operand.type ≠ .ptr ∧ ∃ name, operand.operand.item = .globalName name := by
  unfold TypedOperand.isStray TypedOperand.heldType
  cases operand.operand.item <;> simp [eq_comm (a := Ty.ptr)]

theorem type_of_value {operand : TypedOperand} {value : Value}
    (read : operand.value = .ok value) : value.type = operand.heldType := by
  have form := operand_form read
  unfold TypedOperand.heldType
  rcases form_cases form with ⟨constant, same⟩ | ⟨name, written, rfl⟩ | ⟨name, written, rfl⟩
  · cases written : operand.operand.item with
    | globalName name =>
      rw [written] at form
      cases form
      cases constant
    | _ => exact same
  · rw [written]
    rfl
  · rw [written]
    rfl

theorem type_of_stray {operand : TypedOperand} {value : Value} (stray : operand.isStray = true)
    (read : operand.value = .ok value) : value.type = .ptr ∧ operand.type ≠ .ptr := by
  obtain ⟨other, name, written⟩ := isStray_iff.mp stray
  refine ⟨?_, other⟩
  rw [type_of_value read, TypedOperand.heldType, written]

/-- What a module holds for an operand, at the same place. -/
def Holds (written : Slot × TypedOperand) (held : Slot × Value) : Prop :=
  held.1 = written.1 ∧ written.2.value = .ok held.2

theorem holds_instr {draft : Instr} {instr : KernelGuard.Instr} (read : draft.meaning = .ok instr) :
    List.Forall₂ Holds draft.written instr.held := by
  cases draft with
  | arith target op type lhs rhs =>
    obtain ⟨left, -, read⟩ := bind_gives read
    obtain ⟨right, -, read⟩ := bind_gives read
    cases read
    exact .nil
  | compare target kind predicate type lhs rhs =>
    obtain ⟨left, -, read⟩ := bind_gives read
    obtain ⟨right, -, read⟩ := bind_gives read
    cases read
    exact .nil
  | convert target op operand result =>
    obtain ⟨value, given, read⟩ := bind_gives read
    cases read
    exact .cons ⟨rfl, given⟩ .nil
  | load target type address =>
    obtain ⟨value, given, read⟩ := bind_gives read
    cases read
    exact .cons ⟨rfl, given⟩ .nil
  | elementPtr target type address offset =>
    obtain ⟨pointer, given, read⟩ := bind_gives read
    obtain ⟨distance, given', read⟩ := bind_gives read
    cases read
    exact .cons ⟨rfl, given⟩ (.cons ⟨rfl, given'⟩ .nil)
  | store value address =>
    obtain ⟨content, given, read⟩ := bind_gives read
    obtain ⟨pointer, given', read⟩ := bind_gives read
    cases read
    exact .cons ⟨rfl, given⟩ (.cons ⟨rfl, given'⟩ .nil)
  | call target type callee args =>
    obtain ⟨values, valuesRead, read⟩ := bind_gives read
    cases read
    refine List.forall₂_map_left_iff.mpr (List.forall₂_map_right_iff.mpr ?_)
    refine (mapM_forall₂ valuesRead).imp fun arg value given => ?_
    obtain ⟨content, found, given⟩ := bind_gives given
    cases given
    exact ⟨rfl, found⟩

theorem holds_terminator {draft : Terminator} {instr : KernelGuard.Instr}
    (read : draft.meaning = .ok instr) : List.Forall₂ Holds draft.written instr.held := by
  cases draft with
  | jump target =>
    cases read
    exact .nil
  | branch condition onTrue onFalse =>
    obtain ⟨value, given, read⟩ := bind_gives read
    cases read
    exact .cons ⟨rfl, given⟩ .nil
  | ret operand =>
    cases operand with
    | none =>
      cases read
      exact .nil
    | some operand =>
      obtain ⟨value, given, read⟩ := bind_gives read
      cases read
      exact .cons ⟨rfl, given⟩ .nil

/-! ## Where types are compared -/

private theorem wellTyped_of_stray_instr {draft : Instr} {instr : KernelGuard.Instr}
    (read : draft.meaning = .ok instr) {slot : Slot} {operand : TypedOperand}
    (member : (slot, operand) ∈ draft.written) (compared : slot.isCompared = true)
    (stray : operand.isStray = true) : instr.wellTyped = false := by
  cases draft with
  | arith target op type lhs rhs => cases member
  | compare target kind predicate type lhs rhs => cases member
  | convert target op source result =>
    obtain ⟨value, given, read⟩ := bind_gives read
    cases read
    cases List.mem_singleton.mp member
    obtain ⟨address, other⟩ := type_of_stray stray given
    simp [KernelGuard.Instr.wellTyped, address, other.symm]
  | load target type address =>
    cases List.mem_singleton.mp member
    cases compared
  | elementPtr target type address offset =>
    obtain ⟨pointer, -, read⟩ := bind_gives read
    obtain ⟨distance, given, read⟩ := bind_gives read
    cases read
    rcases List.mem_pair.mp member with same | same
    · cases same
      cases compared
    · cases same
      simp [KernelGuard.Instr.wellTyped, (type_of_stray stray given).1, Ty.isInt]
  | store value address =>
    rcases List.mem_pair.mp member with same | same <;>
    · cases same
      cases compared
  | call target type callee args =>
    obtain ⟨values, valuesRead, read⟩ := bind_gives read
    cases read
    obtain ⟨arg, inside, same⟩ := List.mem_map.mp member
    cases same
    obtain ⟨pair, passed, given⟩ := exists_paired (mapM_forall₂ valuesRead) inside
    obtain ⟨value, found, given⟩ := bind_gives given
    cases given
    obtain ⟨address, other⟩ := type_of_stray stray found
    have apart : (values.all fun arg => arg.1 = arg.2.type) = false :=
      List.all_eq_false.mpr ⟨_, passed, by simp [address, other]⟩
    simp [KernelGuard.Instr.wellTyped, apart]

private theorem wellTyped_of_stray_terminator {draft : Terminator} {instr : KernelGuard.Instr}
    (read : draft.meaning = .ok instr) {slot : Slot} {operand : TypedOperand}
    (member : (slot, operand) ∈ draft.written) (compared : slot.isCompared = true)
    (stray : operand.isStray = true) : instr.wellTyped = false := by
  cases draft with
  | jump target => cases member
  | branch condition onTrue onFalse =>
    obtain ⟨value, given, read⟩ := bind_gives read
    cases read
    cases List.mem_singleton.mp member
    simp [KernelGuard.Instr.wellTyped, (type_of_stray stray given).1]
  | ret value =>
    obtain ⟨operand, -, same⟩ := List.mem_map.mp member
    cases same
    cases compared

/-- What an entry makes is its meaning. -/
theorem made_cases {entry : Entry} {made : Marked KernelGuard.Instr}
    (makes : entry.instr? = some made) :
    (∃ found meaning, entry = .phi found ∧ made.item = .phi meaning) ∨
      (∃ found, entry = .instr found ∧ found.item.meaning = .ok made.item) ∨
        ∃ found, entry = .terminator found ∧ found.item.meaning = .ok made.item := by
  have meant : ∀ {α : Type} {attempt : Except Offence α} {value : α},
      attempt.toOption = some value → attempt = .ok value := by
    rintro α (_ | _) value ⟨⟩
    rfl
  cases entry with
  | initial type operand => cases makes
  | phi found =>
    obtain ⟨meaning, -, rfl⟩ := Option.map_eq_some_iff.mp makes
    exact .inl ⟨found, meaning, rfl, rfl⟩
  | instr found =>
    obtain ⟨meaning, given, rfl⟩ := Option.map_eq_some_iff.mp makes
    exact .inr (.inl ⟨found, rfl, meant given⟩)
  | terminator found =>
    obtain ⟨meaning, given, rfl⟩ := Option.map_eq_some_iff.mp makes
    exact .inr (.inr ⟨found, rfl, meant given⟩)

theorem holds_entry {entry : Entry} {made : Marked KernelGuard.Instr}
    (makes : entry.instr? = some made) : List.Forall₂ Holds entry.written made.item.held := by
  rcases made_cases makes with ⟨_, _, rfl, same⟩ | ⟨found, rfl, meant⟩ | ⟨found, rfl, meant⟩
  · rw [same]
    exact .nil
  · exact holds_instr meant
  · exact holds_terminator meant

/-- A global at another type is refused where types are compared. -/
theorem wellTyped_of_stray {entry : Entry} {made : Marked KernelGuard.Instr}
    (makes : entry.instr? = some made) {written : Slot × TypedOperand}
    (member : written ∈ entry.written) (compared : written.1.isCompared = true)
    (stray : written.2.isStray = true) : made.item.wellTyped = false := by
  rcases made_cases makes with ⟨_, _, rfl, same⟩ | ⟨found, rfl, meant⟩ | ⟨found, rfl, meant⟩
  · cases member
  · exact wellTyped_of_stray_instr meant member compared stray
  · exact wellTyped_of_stray_terminator meant member compared stray

end Draft

/-! ## What is printed -/

section
variable {piece text : String}

private theorem infix_behind (front : String) (inside : piece.toList <:+: text.toList) :
    piece.toList <:+: (front ++ text).toList := by
  rw [String.toList_append]
  exact inside.trans (List.suffix_append ..).isInfix

private theorem infix_before (back : String) (inside : piece.toList <:+: text.toList) :
    piece.toList <:+: (text ++ back).toList := by
  rw [String.toList_append]
  exact inside.trans (List.prefix_append ..).isInfix

private theorem infix_commaSeparated {pieces : List String} (member : piece ∈ pieces) :
    piece.toList <:+: (commaSeparated pieces).toList := by
  unfold commaSeparated
  induction pieces with
  | nil => cases member
  | cons first rest ih =>
    cases rest with
    | nil =>
      obtain rfl := List.mem_singleton.mp member
      rw [String.intercalate_singleton]
    | cons second more =>
      rw [String.intercalate_cons_cons]
      rcases List.mem_cons.mp member with rfl | later
      · exact infix_before _ (infix_before _ List.infix_rfl)
      · exact infix_behind _ (ih later)

end

/-- Whatever stands behind a type in a well-typed instruction is printed behind the type that it
has. -/
theorem Instr.held_printed {instr : Instr} (wellTyped : instr.wellTyped = true) :
    ∀ held ∈ instr.held, (typed held.2.type held.2.text).toList <:+: instr.text.toList := by
  cases instr with
  | convert target op source operand result =>
    obtain rfl : operand.type = source := by simp_all [Instr.wellTyped]
    simp only [Instr.held, List.forall_mem_singleton, Instr.text]
    exact infix_before _ (infix_before _ (infix_behind _ List.infix_rfl))
  | load target type address =>
    have pointer : address.type = .ptr := by simp_all [Instr.wellTyped, ReadBack.isPtr_iff]
    simp only [Instr.held, List.forall_mem_singleton, Instr.text, pointer]
    exact infix_behind _ (infix_commaSeparated (.tail _ (.head _)))
  | store value address =>
    have pointer : address.type = .ptr := by simp_all [Instr.wellTyped, ReadBack.isPtr_iff]
    simp only [Instr.held, List.forall_mem_cons, Instr.text, pointer]
    exact ⟨infix_behind _ (infix_commaSeparated (.head _)),
      infix_behind _ (infix_commaSeparated (.tail _ (.head _))), List.forall_mem_nil _⟩
  | elementPtr target type address offset =>
    have pointer : address.type = .ptr := by simp_all [Instr.wellTyped, ReadBack.isPtr_iff]
    simp only [Instr.held, List.forall_mem_cons, Instr.text, pointer]
    exact ⟨infix_behind _ (infix_commaSeparated (.tail _ (.head _))),
      infix_behind _ (infix_commaSeparated (.tail _ (.tail _ (.head _)))), List.forall_mem_nil _⟩
  | call target type callee args =>
    have same : ∀ arg ∈ args, arg.1 = arg.2.type := by
      simpa using (Bool.and_eq_true_iff.mp wellTyped).2
    simp only [Instr.held, List.forall_mem_map, Instr.text]
    intro arg member
    have printed : typed arg.2.type arg.2.text ∈ args.map fun arg => typed arg.1 arg.2.text :=
      List.mem_map.mpr ⟨arg, member, by rw [same arg member]⟩
    exact infix_before _ (infix_behind _ (infix_commaSeparated printed))
  | branch type condition onTrue onFalse =>
    obtain ⟨rfl, truth⟩ : type = .i1 ∧ condition.type = .i1 := by simp_all [Instr.wellTyped]
    simp only [Instr.held, List.forall_mem_singleton, Instr.text, truth]
    exact infix_behind _ (infix_commaSeparated (.head _))
  | ret value =>
    cases value with
    | none => exact List.forall_mem_nil _
    | some value =>
      simp only [Instr.held, Option.toList_some, List.map_cons, List.map_nil,
        List.forall_mem_singleton, Instr.text]
      exact infix_behind _ List.infix_rfl
  | arith | compare | phi | jump => exact List.forall_mem_nil _

/-! ## Line by line -/

namespace Draft

/-- The instruction of a module that an entry makes. -/
def Makes (entry : Entry) (instr : KernelGuard.Instr) : Prop :=
  ∃ mark, entry.instr? = some ⟨mark, instr⟩ ∧ instr.wellTyped = true

private theorem makes_block {block : Block} {meaning : Module.Block}
    (read : block.meaning = .ok meaning) :
    List.Forall₂ Makes block.entries (Func.blockOf meaning).code := by
  obtain ⟨phis, phisRead, read⟩ := bind_gives read
  obtain ⟨instrs, instrsRead, read⟩ := bind_gives read
  obtain ⟨last, meant, read⟩ := bind_gives read
  obtain ⟨terminator, passed, read⟩ := bind_gives read
  cases read
  refine List.rel_append (List.rel_append ?_ ?_) (.cons ?_ .nil)
  · refine List.forall₂_map_left_iff.mpr (List.forall₂_map_right_iff.mpr ?_)
    refine (mapM_forall₂ phisRead).imp fun phi result given => ?_
    obtain ⟨meaning, meant, given⟩ := bind_gives given
    obtain ⟨_, passed, given⟩ := bind_gives given
    cases given
    exact ⟨phi.mark, by simp [Entry.instr?, meant, Except.toOption], (checked_gives passed).2⟩
  · refine List.forall₂_map_left_iff.mpr ?_
    refine (mapM_forall₂ instrsRead).imp fun instr result given => ?_
    obtain ⟨meaning, meant, passed⟩ := bind_gives given
    obtain ⟨rfl, typed⟩ := checked_gives passed
    exact ⟨instr.mark, by simp [Entry.instr?, meant, Except.toOption], typed⟩
  · obtain ⟨rfl, typed⟩ := checked_gives passed
    exact ⟨block.terminator.mark, by simp [Entry.instr?, meant, Except.toOption], typed⟩

private theorem makes_function {function : Function} {meaning : Module.Function}
    (read : function.meaning = .ok meaning) :
    List.Forall₂ Makes function.entries
      (meaning.blocks.flatMap fun block => (Func.blockOf block).code) := by
  obtain ⟨blocks, blocksRead, read⟩ := bind_gives read
  cases read
  exact List.rel_flatMap (mapM_forall₂ blocksRead) fun _ _ given => makes_block given

private theorem makes_functions {items : List Item} {start module : Module}
    (read : items.foldlM Item.extend start = .ok module) :
    ∃ more, module.code = start.code ++ more ∧
      List.Forall₂ Makes ((functions items).flatMap Function.entries) more := by
  induction items generalizing start with
  | nil =>
    cases read
    exact ⟨[], (List.append_nil _).symm, .nil⟩
  | cons item items ih =>
    rw [List.foldlM_cons] at read
    obtain ⟨next, step, read⟩ := bind_gives read
    obtain ⟨more, code, makes⟩ := ih read
    cases item with
    | global written =>
      obtain ⟨meaning, -, step⟩ := bind_gives step
      cases step
      exact ⟨more, code, makes⟩
    | function written =>
      obtain ⟨meaning, meant, step⟩ := bind_gives step
      cases step
      refine ⟨_, ?_, List.rel_append (makes_function meant) makes⟩
      rw [code]
      simp only [Module.code, List.flatMap_append, List.flatMap_singleton, List.append_assoc]

/-- The entries of the functions make the instructions of the module, one each. -/
theorem makes_code {draft : Draft} {module : Module} (read : draft.meaning = .ok module) :
    List.Forall₂ Makes (draft.functions.flatMap Function.entries) module.code := by
  obtain ⟨more, code, makes⟩ := makes_functions read
  rw [code]
  exact makes

/-- Only instructions have operands behind types. -/
theorem entry_of_function {draft : Draft} {entry : Entry} (member : entry ∈ draft.entries)
    {written : Slot × TypedOperand} (inside : written ∈ entry.written) :
    entry ∈ draft.functions.flatMap Function.entries := by
  obtain ⟨item, present, listed⟩ := List.mem_flatMap.mp member
  cases item with
  | global found =>
    obtain ⟨operand, -, rfl⟩ := List.mem_map.mp listed
    cases inside
  | function found =>
    exact List.mem_flatMap.mpr ⟨found, List.mem_filterMap.mpr ⟨_, present, rfl⟩, listed⟩

end Draft

namespace Program

open Draft

/-- What a module holds behind a type has the type that was written, unless a global stands
there, which is an address; and it is printed behind the type that it has. Where instructions
compare types, a text with a global at another type is refused, for the first such instruction
if nothing in front of it offends. -/
theorem written_types_hold_where_compared {text : String} {draft : Draft}
    (fits : Draft.ofText? text.toList = some draft) :
    (∀ module, Module.ofText text = .ok module →
      List.Forall₂ (fun entry instr =>
          List.Forall₂ (fun written held => held.1 = written.1 ∧ written.2.value = .ok held.2 ∧
            held.2.type = written.2.heldType ∧
            (written.1.isCompared = true → held.2.type = written.2.type)) entry.written instr.held ∧
          ∀ held ∈ instr.held, (typed held.2.type held.2.text).toList <:+: instr.text.toList)
        (draft.functions.flatMap Draft.Function.entries) module.code) ∧
    ∀ entry ∈ draft.entries, ∀ written ∈ entry.written,
      written.1.isCompared = true → written.2.isStray = true →
      (∃ fault, ofText text = .error fault) ∧
      ∀ front back made, draft.entries = front ++ entry :: back →
        (∀ earlier ∈ front, ∀ offence, ¬earlier.Offends offence) → entry.instr? = some made →
        ofText text =
          .error (.complaint (.ofMark text.toList made.mark) (.illTyped made.item.text)) := by
  have accepted : ∀ module, Module.ofText text = .ok module →
      List.Forall₂ Makes (draft.functions.flatMap Draft.Function.entries) module.code := by
    intro module read
    obtain ⟨other, fits', meant⟩ := Module.draft_ofText read
    obtain rfl : draft = other := Option.some.inj (fits.symm.trans fits')
    exact makes_code meant
  refine ⟨fun module read => (accepted module read).imp ?_,
    fun entry member written inside compared stray => ⟨?_, ?_⟩⟩
  · rintro entry instr ⟨mark, makes, wellTyped⟩
    refine ⟨?_, Instr.held_printed wellTyped⟩
    have plain : ∀ written ∈ entry.written,
        written.1.isCompared = true → written.2.isStray = false := by
      intro written inside compared
      by_contra stray
      have ill := wellTyped_of_stray makes inside compared (eq_true_of_ne_false stray)
      exact Bool.noConfusion (ill.symm.trans wellTyped)
    refine ((List.forall₂_and_left _ _).mpr ⟨plain, holds_entry makes⟩).imp ?_
    rintro written held ⟨plain, same, value⟩
    have type := type_of_value value
    refine ⟨same, value, type, fun compared => type.trans ?_⟩
    simpa [TypedOperand.isStray] using plain compared
  · cases read : ofText text with
    | error fault => exact ⟨fault, rfl⟩
    | ok program =>
      obtain ⟨module, moduleRead, -⟩ := bind_gives read
      obtain ⟨instr, -, mark, makes, wellTyped⟩ :=
        exists_paired (accepted module moduleRead) (entry_of_function member inside)
      have ill := wellTyped_of_stray makes inside compared stray
      exact absurd wellTyped (by simp [ill])
  · intro front back made listed clean makes
    have ill := wellTyped_of_stray makes inside compared stray
    exact ofText_eq_error_iff.mpr
      (.offence fits ⟨front, entry, back, listed, clean, .illTyped makes ill⟩)

/-- A global at an integer type, stored and then handed to a call. -/
def strayText : String :=
  "define void @f(ptr %p) \x7b e: store i32 @g, ptr %p call void @h(i32 @g) ret void \x7d"

def strayDraft : Draft :=
  let stray (mark : Nat) : TypedOperand := ⟨.i32, ⟨mark, .globalName "g"⟩⟩
  [.function {
    name := "f"
    returnType := .void
    params := [(.ptr, "p")]
    blocks := [{
      label := "e"
      phis := []
      instrs := [⟨52, .store (stray 42) ⟨.ptr, ⟨34, .localName "p"⟩⟩⟩,
        ⟨31, .call none .void "h" [stray 14]⟩]
      terminator := ⟨10, .ret none⟩ }] }]

/-- Nothing is said of the store, and the call is refused. -/
theorem stray_argument_refused : Draft.ofText? strayText.toList = some strayDraft ∧
    ofText strayText = .error (.complaint ⟨1, 50⟩ (.illTyped "call void @h(i32 @g)")) := by
  have fits : Draft.ofText? strayText.toList = some strayDraft := by decide +kernel
  let front := strayDraft.entries.take 1
  have sound : ∀ earlier ∈ front, earlier.check = .ok () := by decide
  have clean : ∀ earlier ∈ front, ∀ offence, ¬earlier.Offends offence := by
    intro earlier member offence offends
    have failed := (check_eq_error_iff earlier offence).mpr offends
    rw [sound earlier member] at failed
    cases failed
  obtain ⟨-, refused⟩ := (written_types_hold_where_compared fits).2 (strayDraft.entries[1])
    (.tail _ (.head _)) _ (.head _) rfl (by decide)
  exact ⟨fits, (refused front (strayDraft.entries.drop 2) _ rfl clean rfl).trans
    (by decide +kernel)⟩

/-- The store alone. -/
def strayStoreText : String :=
  "@g = global i32 0\n\n" ++
    "define void @f(ptr %p) \x7b\nentry:\n  store i32 @g, ptr %p\n  ret void\n\x7d\n"

/-- It is accepted, although an integer type is written where an address is held, and is printed
at the type of addresses. -/
theorem stray_store_accepted :
    (Draft.ofText? strayStoreText.toList).map (fun draft =>
        draft.entries.flatMap (·.written.map fun written => (written.1, written.2.type))) =
      some [(.stored, .i32), (.storeAddress, .ptr)] ∧
    (Module.ofText strayStoreText).map (fun module =>
        module.code.flatMap (·.held.map fun held => (held.1, held.2.type))) =
      .ok [(.stored, .ptr), (.storeAddress, .ptr)] ∧
    (ofText strayStoreText).map Program.text = .ok ("@g = global i32 0\n\n" ++
      "define void @f(ptr %p) \x7b\nentry:\n  store ptr @g, ptr %p\n  ret void\n\x7d\n") := by
  decide +kernel

end Program

end KernelGuard
