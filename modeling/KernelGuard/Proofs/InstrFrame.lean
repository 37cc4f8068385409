import KernelGuard.Proofs.DefinitionErasure

/-! What an instruction reads, and what becomes of it when a value is handed to the readers of
a temporary. An instruction is its operands in a frame: its kind, what it writes, its operator,
the types it is written with and its labels. A substitution keeps the frame and goes through
the operands one by one, whatever the kind, so it meets just the reads that are told of the
instruction. -/
namespace KernelGuard

/-- Everything about an instruction but its operands. -/
inductive Frame where
  | arith (target : Temp) (op : ArithOp) (type : Ty)
  | compare (target : Temp) (kind : CompareKind) (predicate : Predicate) (type : Ty)
  | convert (target : Temp) (op : ConvertOp) (source result : Ty)
  | load (target : Temp) (type : Ty)
  | store
  | elementPtr (target : Temp) (type : Ty)
  | call (target : Option Temp) (type : Ty) (callee : String) (argTypes : List Ty)
  | phi (target : Temp) (type : Ty) (labels : List Label)
  | jump (target : Label)
  | branch (type : Ty) (onTrue onFalse : Label)
  | ret

/-- The frame of an instruction. -/
def Instr.frame : Instr → Frame
  | arith target op type _ _ => .arith target op type
  | compare target kind predicate type _ _ => .compare target kind predicate type
  | convert target op source _ result => .convert target op source result
  | load target type _ => .load target type
  | store _ _ => .store
  | elementPtr target type _ _ => .elementPtr target type
  | call target type callee args => .call target type callee (args.map (·.1))
  | phi p => .phi p.target p.type (p.sources.map (·.2))
  | jump target => .jump target
  | branch type _ onTrue onFalse => .branch type onTrue onFalse
  | ret _ => .ret

theorem pairs_eq {α β : Type} {pairs pairs' : List (α × β)}
    (first : pairs.map (·.1) = pairs'.map (·.1)) (second : pairs.map (·.2) = pairs'.map (·.2)) :
    pairs = pairs' := by
  rw [← List.zip_unzip pairs, ← List.zip_unzip pairs', List.unzip_eq_map, List.unzip_eq_map,
    first, second]

namespace Instr

variable {instr other : Instr} {name : Name} {value : Value}

/-- Instructions with one frame and the same operands are the same. -/
theorem eq_of_frame (frame : instr.frame = other.frame)
    (operands : instr.operands = other.operands) : instr = other := by
  cases instr with
  | call target type callee args =>
    cases other with
    | call target' type' callee' args' =>
      simp only [Instr.frame, Frame.call.injEq] at frame
      obtain ⟨rfl, rfl, rfl, types⟩ := frame
      obtain rfl : args = args' := pairs_eq types operands
      rfl
    | _ => cases frame
  | phi p =>
    cases other with
    | phi p' =>
      obtain ⟨target, type, sources⟩ := p
      obtain ⟨target', type', sources'⟩ := p'
      simp only [Instr.frame, Frame.phi.injEq] at frame
      obtain ⟨rfl, rfl, labels⟩ := frame
      obtain rfl : sources = sources' := pairs_eq operands labels
      rfl
    | _ => cases frame
  | ret value =>
    cases other with
    | ret value' => cases value <;> cases value' <;> cases operands <;> rfl
    | _ => cases frame
  | _ =>
    cases other <;> cases frame
    cases operands
    rfl

theorem frame_mapOperands (f : Value → Value) (instr : Instr) :
    (instr.mapOperands f).frame = instr.frame := by
  cases instr <;> simp [mapOperands, Phi.mapOperands, frame]

/-- A substitution keeps the frame and looks at the operands one by one, and nothing else is
the outcome of one. -/
theorem eq_substitute_iff : other = instr.substitute name value ↔
    other.frame = instr.frame ∧
      other.operands = instr.operands.map fun operand =>
        if operand.name? = some name then value else operand := by
  have frame := frame_mapOperands (Value.substitute name value) instr
  have operands := operands_mapOperands (Value.substitute name value) instr
  constructor
  · rintro rfl
    exact ⟨frame, operands⟩
  · rintro ⟨frame', operands'⟩
    exact eq_of_frame (frame'.trans frame.symm) (operands'.trans operands.symm)

/-- Each read of the temporary becomes a read of what is handed out, if that is one at all, and
the other reads stay. -/
theorem reads_substitute (instr : Instr) (name : Name) (value : Value) :
    (instr.substitute name value).reads = instr.reads.filterMap fun read =>
      if read.name = name then value.temp? else some read := by
  rw [reads, substitute, operands_mapOperands, List.filterMap_map, reads, List.filterMap_filterMap]
  congr 1
  funext operand
  cases operand with
  | temp read =>
    by_cases same : read.name = name <;> simp [Value.substitute, Value.name?, Value.temp?, same]
  | _ => rfl

theorem reads_substitute_temp (instr : Instr) (name : Name) (temp : Temp) :
    (instr.substitute name (.temp temp)).reads =
      instr.reads.map fun read => if read.name = name then temp else read := by
  rw [reads_substitute, ← List.filterMap_eq_map]
  congr 1
  funext read
  exact (apply_ite some ..).symm

theorem reads_substitute_constant (constant : value.isConstant = true) (instr : Instr)
    (name : Name) :
    (instr.substitute name value).reads = instr.reads.filter (·.name ≠ name) := by
  rw [reads_substitute, Option.isNone_iff_eq_none.mp constant, ← List.filterMap_eq_filter]
  congr 1
  funext read
  by_cases same : read.name = name <;> simp [Option.guard, same]

theorem occurrences_eq_count_reads (instr : Instr) (name : Name) :
    instr.occurrences name = instr.reads.countP (·.name = name) :=
  Value.count_reads instr.operands name

/-- Two constants are handed to the readers of two temporaries in either order. -/
theorem substitute_comm {first second : Name} {constant constant' : Value}
    (different : first ≠ second) (fixed : constant.isConstant = true)
    (fixed' : constant'.isConstant = true) (instr : Instr) :
    (instr.substitute first constant).substitute second constant' =
      (instr.substitute second constant').substitute first constant := by
  simp only [substitute, mapOperands_mapOperands]
  congr 1
  funext operand
  exact (Value.substitute_comm different fixed fixed' operand).symm

/-- A value is handed to the readers of a temporary just where the reads say, for every kind of
instruction. As many operands are replaced as there are reads of the temporary, at whatever type
it is read; the reads afterwards are those before with each of these replaced, or dropped where
the value is a constant. What is written, where control may go and everything else about the
instruction stay, and so do the other operands. Constants are handed to the readers of two
temporaries in either order. -/
theorem substitution_follows_reads (instr : Instr) (temp : Temp) (value : Value) :
    let changed := instr.substitute temp.name value
    instr.occurrences temp.name = instr.reads.countP (·.name = temp.name) ∧
    changed.reads =
      (match value with
      | .temp other => instr.reads.map fun read => if read.name = temp.name then other else read
      | _ => instr.reads.filter (·.name ≠ temp.name)) ∧
    (changed.target? = instr.target? ∧ changed.targets = instr.targets ∧
      ∀ other, other = changed ↔ other.frame = instr.frame ∧
        other.operands = instr.operands.map fun operand =>
          if operand.name? = some temp.name then value else operand) ∧
    ∀ (second : Temp) (constant : Value), second.name ≠ temp.name → value.isConstant = true →
      constant.isConstant = true →
        changed.substitute second.name constant =
          (instr.substitute second.name constant).substitute temp.name value := by
  refine ⟨occurrences_eq_count_reads instr temp.name, ?_,
    ⟨target_mapOperands _ instr, targets_mapOperands _ instr, fun _ => eq_substitute_iff⟩, ?_⟩
  · cases value with
    | temp other => exact reads_substitute_temp instr temp.name other
    | _ => exact reads_substitute_constant rfl instr temp.name
  · intro second constant different fixed fixed'
    exact substitute_comm different.symm fixed fixed' instr

/-- A call that reads one temporary at two types, between a constant and another temporary. -/
def mixedCall : Instr :=
  .call (some (.ofLocal "r" .i32)) .i32 "mix"
    [(.i32, .temp (.ofLocal "a" .i32)), (.i1, .bool true), (.i64, .temp (.ofLocal "a" .i64)),
      (.i32, .temp (.ofLocal "b" .i32))]

/-- Both reads are replaced, and one read of another temporary is left. -/
theorem mixedCall_substituted :
    mixedCall.reads.countP (·.name = ⟨"a", false⟩) = 2 ∧
    (mixedCall.substitute ⟨"a", false⟩ (.int 7)).reads = [.ofLocal "b" .i32] ∧
    (mixedCall.substitute ⟨"a", false⟩ (.int 7)).targets = [] ∧
    (mixedCall.substitute ⟨"a", false⟩ (.int 7)).substitute ⟨"b", false⟩ (.bool false) =
      (mixedCall.substitute ⟨"b", false⟩ (.bool false)).substitute ⟨"a", false⟩ (.int 7) := by
  obtain ⟨count, reads, ⟨-, targets, -⟩, swapped⟩ :=
    substitution_follows_reads mixedCall (.ofLocal "a" .i32) (.int 7)
  refine ⟨count.symm.trans rfl, reads.trans (by decide), targets, ?_⟩
  exact swapped (.ofLocal "b" .i32) (.bool false) (by decide) rfl rfl

end Instr

end KernelGuard
