import KernelGuard.IR.Instr

/-! The type check of single instructions. It looks at the types that operands
carry and never at other instructions. -/
namespace KernelGuard.Instr

/-- Whether the types in an instruction fit together. -/
def wellTyped : Instr → Bool
  | arith target op type lhs rhs =>
    op.accepts type && target.type = type && lhs.type = type && rhs.type = type
  | compare target kind predicate type lhs rhs =>
    kind.accepts type && predicate.accepts type && target.type = .i1 &&
      lhs.type = type && rhs.type = type
  | convert target op source operand result =>
    op.joins source result && target.type = result && operand.type = source && op.accepts source
  | load target type address => address.type.isPtr && target.type = type
  | store _ address => address.type.isPtr
  | elementPtr target _ address offset =>
    address.type.isPtr && target.type.isPtr && offset.type.isInt
  | call target type _ args =>
    (target.isSome != type.isVoid) && args.all fun arg => arg.1 = arg.2.type
  | phi p => p.sources.all fun source => source.1.type = p.type
  | branch type condition _ _ => type = .i1 && condition.type = .i1
  | jump _ => true
  | ret _ => true

end KernelGuard.Instr
