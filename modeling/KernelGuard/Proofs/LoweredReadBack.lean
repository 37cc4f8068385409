import KernelGuard.Proofs.EditReadBack
import KernelGuard.Proofs.FusedLowering
import KernelGuard.Proofs.NumeralText
import KernelGuard.Proofs.PassRuns

/-! Reading back what lowering leaves behind. A call passes the type check with arguments of
any types, a product and a sum only with operands of one floating type. So a lowered program
is well typed exactly when each call that was lowered is of that kind, and then what is
printed of it is accepted and printed as it is. -/
namespace KernelGuard.FusedMultiplyAdd

/-- A call whose result and arguments have one floating type. -/
def Call.Fits (call : Call) : Prop :=
  call.type.isFloat = true ∧ call.a.type = call.type ∧ call.b.type = call.type ∧
    call.c.type = call.type

/-- Every call that is lowered in a function is of one floating type. -/
def Fitting (func : Func) : Prop :=
  ∀ block ∈ func.blocks, ∀ instr ∈ block.instrs, ∀ call, call? instr = some call → call.Fits

/-! ## The instructions -/

/-- The name of a product is spelled like any other. -/
private theorem product_target (names : NameSupply) (type : Ty) :
    (names.fresh "fmul" type).1.IsTarget where
  isLocal := rfl
  spelled := by
    have spelling : (names.fresh "fmul" type).1.name.spelling.toList =
        "fmul.".toList ++ Nat.toDigits 10 (names.next "fmul") := by
      simp [NameSupply.fresh, NameSupply.numbered, Temp.ofLocal, Nat.repr_eq_ofList_toDigits]
    refine ⟨by simp [spelling], fun c member => ?_⟩
    rw [spelling, List.mem_append] at member
    rcases member with stem | digit
    · have letters : ∀ c ∈ "fmul.".toList, Lexeme.isNameChar c = true := by
        simp [Lexeme.isNameChar]
      exact letters c stem
    · exact Decimal.isNameChar_of_isDigit (Decimal.toDigits_digits _ c digit)

/-- A plain instruction whose names and constants can be read. -/
private def Plain (instr : Instr) : Prop :=
  instr.Legible ∧ instr.isPhi = false ∧ instr.isSequential = true

private theorem plain_arith {target : Temp} {lhs rhs : Value} (op : ArithOp) (type : Ty)
    (written : target.IsTarget) (left : lhs.Readable) (right : rhs.Readable) :
    Plain (.arith target op type lhs rhs) := by
  refine ⟨⟨?_, ?_, by simp [Instr.targets], trivial⟩, rfl, rfl⟩
  · simpa [Instr.operands] using ⟨left, right⟩
  · rintro temp ⟨⟩
    exact written

private theorem lowered_plain {call : Call} (names : NameSupply)
    (legible : (Instr.call (some call.target) call.type callee
      [(aType, call.a), (bType, call.b), (cType, call.c)]).Legible) :
    ∀ instr ∈ lowered call (names.fresh "fmul" call.type).1, Plain instr := by
  have written := product_target names call.type
  have named : (Value.temp (names.fresh "fmul" call.type).1).Readable :=
    ⟨written.spelled, fun global => by cases global⟩
  obtain ⟨a, b, c⟩ : call.a.Readable ∧ call.b.Readable ∧ call.c.Readable := by
    simpa [Instr.operands] using legible.operands
  refine List.forall_mem_cons.mpr ⟨plain_arith _ _ written a b, ?_⟩
  refine List.forall_mem_cons.mpr ⟨plain_arith _ _ (legible.target _ rfl) named c, ?_⟩
  simp

private theorem lowerInstrs_plain {instrs : List Instr} (names : NameSupply)
    (plain : ∀ instr ∈ instrs, Plain instr) :
    ∀ instr ∈ (lowerInstrs names instrs).value.1, Plain instr := by
  induction instrs generalizing names with
  | nil => simp [lowerInstrs]
  | cons instr rest ih =>
    obtain ⟨here, later⟩ := List.forall_mem_cons.mp plain
    cases found : call? instr with
    | none =>
      rw [lowerInstrs_kept found]
      exact List.forall_mem_cons.mpr ⟨here, ih names later⟩
    | some call =>
      obtain ⟨callee, aType, bType, cType, rfl, -⟩ := call_eq_some_iff.mp found
      rw [lowerInstrs_call found]
      exact List.forall_mem_append.mpr
        ⟨lowered_plain names here.1, ih (names.fresh "fmul" call.type).2 later⟩

/-! ## Their types -/

private theorem arith_typed_iff {target : Temp} {op : ArithOp} {type : Ty} {lhs rhs : Value} :
    (Instr.arith target op type lhs rhs).wellTyped = true ↔
      op.accepts type = true ∧ target.type = type ∧ lhs.type = type ∧ rhs.type = type := by
  simp [Instr.wellTyped, and_assoc]

/-- A product and a sum are well typed exactly when the call is of one floating type. -/
private theorem lowered_typed_iff (call : Call) (names : NameSupply)
    (target : call.target.type = call.type) :
    (∀ instr ∈ lowered call (names.fresh "fmul" call.type).1, instr.wellTyped = true) ↔
      call.Fits := by
  have product : (names.fresh "fmul" call.type).1.type = call.type := rfl
  have operand : (Value.temp (names.fresh "fmul" call.type).1).type = call.type := rfl
  have fmul : ArithOp.fmul.accepts call.type = call.type.isFloat := rfl
  have fadd : ArithOp.fadd.accepts call.type = call.type.isFloat := rfl
  simp only [lowered, List.forall_mem_cons, arith_typed_iff, product, operand, fmul, fadd, target,
    Call.Fits, List.not_mem_nil, false_implies, implies_true, and_true, true_and]
  tauto

/-- Among well-typed instructions, exactly the calls that do not fit are lowered to something
ill typed. -/
private theorem lowerInstrs_typed_iff {instrs : List Instr} (names : NameSupply)
    (plain : ∀ instr ∈ instrs, Plain instr) (typed : ∀ instr ∈ instrs, instr.wellTyped = true) :
    (∀ instr ∈ (lowerInstrs names instrs).value.1, instr.wellTyped = true) ↔
      ∀ instr ∈ instrs, ∀ call, call? instr = some call → call.Fits := by
  induction instrs generalizing names with
  | nil => simp [lowerInstrs]
  | cons instr rest ih =>
    obtain ⟨here, later⟩ := List.forall_mem_cons.mp plain
    obtain ⟨check, check'⟩ := List.forall_mem_cons.mp typed
    cases found : call? instr with
    | none => simp [lowerInstrs_kept found, found, check, ih names later check']
    | some call =>
      have first := lowered_typed_iff call names
      obtain ⟨callee, aType, bType, cType, rfl, -⟩ := call_eq_some_iff.mp found
      rw [lowerInstrs_call found, List.forall_mem_append, List.forall_mem_cons,
        first (here.1.complete.2 _ rfl), ih _ later check']
      simp [found]

/-! ## The program -/

private theorem lower_legible {func : Func} (legible : func.Legible) :
    (lower func).value.1.Legible := by
  have pairs := lowerBlocks_each func.blocks func.names
  refine ⟨legible.name, legible.params, ?_, ?_⟩
  · intro none
    have length : func.blocks.length = (lower func).value.1.blocks.length := pairs.length_eq
    rw [none] at length
    exact legible.nonempty (List.length_eq_zero_iff.mp length)
  · intro result inside
    obtain ⟨block, original, names, -, rfl, -⟩ := origin_of_lowered pairs inside
    have before := legible.blocks block original
    exact ⟨before.label, before.phis, lowerInstrs_plain names before.instrs, before.ended⟩

/-- A lowered function is well typed exactly when each call in it was of one floating type. -/
private theorem lower_typed_iff {func : Func} (legible : func.Legible) (typed : func.WellTyped) :
    (lower func).value.1.WellTyped ↔ Fitting func := by
  have pairs := lowerBlocks_each func.blocks func.names
  have instrs : ∀ block ∈ func.blocks, ∀ names : NameSupply,
      (∀ instr ∈ (lowerInstrs names block.instrs).value.1, instr.wellTyped = true) ↔
        ∀ instr ∈ block.instrs, ∀ call, call? instr = some call → call.Fits := by
    intro block member names
    refine lowerInstrs_typed_iff names (legible.blocks block member).instrs fun instr listed => ?_
    exact typed block member instr (List.mem_append_left _ (List.mem_append_right _ listed))
  constructor
  · intro passes block member
    obtain ⟨result, inside, names, -, rfl, -⟩ := result_of_block pairs member
    refine (instrs block member names).mp fun instr listed => passes _ inside instr ?_
    exact List.mem_append_left _ (List.mem_append_right _ listed)
  · intro fitting result inside instr listed
    obtain ⟨block, member, names, -, rfl, -⟩ := origin_of_lowered pairs inside
    rcases List.mem_append.mp listed with body | last
    · rcases List.mem_append.mp body with phi | plain
      · exact typed block member instr (List.mem_append_left _ (List.mem_append_left _ phi))
      · exact (instrs block member names).mpr (fitting block member) instr plain
    · exact typed block member instr (List.mem_append_right _ last)

theorem ways_lower (func : Func) : (lower func).value.1.ways = func.ways := by
  have blocks : ∀ (blocks : List Block) (names : NameSupply),
      (lowerBlocks names blocks).value.1.map Block.ways = blocks.map Block.ways := by
    intro blocks names
    induction blocks generalizing names with
    | nil => rfl
    | cons block rest ih =>
      rw [lowerBlocks_value, List.map_cons, List.map_cons, ih]
      rfl
  exact blocks func.blocks func.names

/-- The pass visits functions by lowering each of them on its own. -/
theorem visits_lowered (functions : List Func) :
    pass.Visits () functions (functions.map fun func => (lower func).value) := by
  induction functions with
  | nil => exact .done
  | cons func rest ih => exact .next rfl ih

theorem functions_of_pass (program : Program) :
    (pass.apply program).value.1 =
      { program with functions := program.functions.map fun func => (lower func).value.1 } := by
  rw [Pass.apply_of_visits (visits_lowered program.functions), List.map_map]
  rfl

/-- The program that the pass leaves is well typed exactly when every call that was lowered
is of one floating type. Then what is printed of it is accepted, and printed as it is. -/
theorem lowered_program_reads_back {text : String} {program : Program}
    (parsed : Program.ofText text = .ok program)
    (finite : ∀ value ∈ program.operands, value.isFinite = true) :
    let result := (pass.apply program).value.1
    (result.WellTyped ↔ ∀ func ∈ program.functions, Fitting func) ∧
      (result.WellTyped → ∃ again, Program.ofText result.text = .ok again ∧
        again.text = result.text) := by
  intro result
  obtain ⟨legible, checked⟩ := Program.legible_ofText parsed finite
  have made : result = _ := functions_of_pass program
  have typed : result.WellTyped ↔ ∀ func ∈ program.functions, Fitting func := by
    rw [made]
    refine List.forall_mem_map.trans (forall₂_congr fun func member => ?_)
    exact lower_typed_iff (legible func member) (checked func member)
  refine ⟨typed, fun passes => ?_⟩
  have ways : Program.SameWays program result := by
    rw [made]
    exact ⟨rfl, by simp [List.map_map, Function.comp_def, ways_lower]⟩
  refine Program.edited_reads_back parsed finite ways ?_ passes
  rw [made]
  exact List.forall_mem_map.mpr fun func member => lower_legible (legible func member)

/-- A call of the intrinsic on floating values, and one of a function of another name. -/
def blendText : String := String.join [
  "define double @blend(double %a, double %b) \x7b\n", "entry:\n",
  "  %r = call double @llvm.fmuladd.f64", "(double %a, double %b, double 0.5)\n",
  "  %e = call double @exp(double %r)\n", "  ret double %e\n", "\x7d\n"]

/-- It is lowered, and what is printed is read back. -/
theorem blend_reads_back : ∃ program, Program.ofText blendText = .ok program ∧
    (∀ value ∈ program.operands, value.isFinite = true) ∧ (pass.apply program).value.2 = true ∧
    ∃ again, Program.ofText (pass.apply program).value.1.text = .ok again ∧
      again.text = (pass.apply program).value.1.text := by
  have evaluated : (Program.ofText blendText).toOption.any (fun program =>
      program.operands.all (·.isFinite) && (pass.apply program).value.2 &&
        decide (pass.apply program).value.1.WellTyped) = true := by
    rw [blendText, Program.ofText_join]
    decide +kernel
  cases parsed : Program.ofText blendText with
  | error => simp [parsed, Except.toOption] at evaluated
  | ok program =>
    simp only [parsed, Except.toOption, Option.any_some, Bool.and_eq_true, List.all_eq_true,
      decide_eq_true_eq] at evaluated
    obtain ⟨⟨finite, changed⟩, typed⟩ := evaluated
    exact ⟨program, rfl, finite, changed, (lowered_program_reads_back parsed finite).2 typed⟩

/-- The same call on integers. -/
def integerBlendText : String := String.join [
  "define i32 @blend(i32 %a) \x7b\n", "entry:\n",
  "  %r = call i32 @llvm.fmuladd.i32", "(i32 %a, i32 %a, i32 %a)\n", "  ret i32 %r\n", "\x7d\n"]

/-- An integer call is accepted and lowered all the same. The product of integers that it
leaves is not well typed, and what is printed is refused. -/
theorem integer_blend_refused : ∃ program, Program.ofText integerBlendText = .ok program ∧
    (∀ value ∈ program.operands, value.isFinite = true) ∧
    ¬(pass.apply program).value.1.WellTyped ∧
    ∀ again, Program.ofText (pass.apply program).value.1.text ≠ .ok again := by
  have evaluated : (Program.ofText integerBlendText).toOption.any (fun program =>
      program.operands.all (·.isFinite) && !decide (pass.apply program).value.1.WellTyped &&
        (Program.ofText (pass.apply program).value.1.text).toOption.isNone) = true := by
    rw [integerBlendText, Program.ofText_join]
    decide +kernel
  cases parsed : Program.ofText integerBlendText with
  | error => simp [parsed, Except.toOption] at evaluated
  | ok program =>
    simp only [parsed, Except.toOption, Option.any_some, Bool.and_eq_true, List.all_eq_true,
      Bool.not_eq_true', decide_eq_false_iff_not] at evaluated
    obtain ⟨⟨finite, untyped⟩, refused⟩ := evaluated
    refine ⟨program, rfl, finite, untyped, fun again accepted => ?_⟩
    simp [accepted] at refused

end KernelGuard.FusedMultiplyAdd
