import KernelGuard.Proofs.ReadBack

/-! Instructions are read back from what is written of them. A definition is known by the
word behind its target, and a plain instruction, a phi and the end of a block by how their
texts begin. -/
namespace KernelGuard

open Reader Lexeme

theorem Temp.IsTarget.ofLocal_eq {temp : Temp} (target : temp.IsTarget) :
    Temp.ofLocal temp.name.spelling temp.type = temp := by
  obtain ⟨⟨spelling, isGlobal⟩, type⟩ := temp
  obtain rfl : isGlobal = false := target.isLocal
  rfl

namespace ReadBack

/-! ## Definitions -/

section
variable (target : String)

theorem arith_yields (op : ArithOp) {type : Ty} {lhs rhs : Value} (left : lhs.Readable)
    (right : rhs.Readable) (leftType : lhs.type = type) (rightType : rhs.type = type)
    (stops : Stops isNameChar rest) :
    Yields (Draft.definition target) Draft.Instr.meaning
      (op.text ++ " " ++ commaSeparated [typed type lhs.text, rhs.text]).toList rest
      (.arith (.ofLocal target type) op type lhs rhs) := by
  obtain ⟨l, r, read, leftMeant, rightMeant⟩ :=
    operandPair_reads left right leftType rightType stops
  have word : isWord op.text = true := by cases op <;> rfl
  have found : ArithOp.ofText? op.text = some op := by cases op <;> rfl
  refine ⟨.arith target op type l r, orElse_reads ?_, ?_⟩
  · rw [spaced_toList, Draft.arith, bind_reads (word_reads word found _),
      bind_reads (behind_blank gapped_operandPair read)]
    rfl
  · simp only [Draft.Instr.meaning, leftMeant, rightMeant]
    rfl

theorem compare_yields (kind : CompareKind) (predicate : Predicate) {type : Ty} {lhs rhs : Value}
    (left : lhs.Readable) (right : rhs.Readable) (leftType : lhs.type = type)
    (rightType : rhs.type = type) (stops : Stops isNameChar rest) :
    Yields (Draft.definition target) Draft.Instr.meaning
      (kind.text ++ " " ++ predicate.text ++ " " ++
        commaSeparated [typed type lhs.text, rhs.text]).toList rest
      (.compare (.ofLocal target .i1) kind predicate type lhs rhs) := by
  obtain ⟨l, r, read, leftMeant, rightMeant⟩ :=
    operandPair_reads left right leftType rightType stops
  have word : isWord kind.text = true := by cases kind <;> rfl
  have found : CompareKind.ofText? kind.text = some kind := by cases kind <;> rfl
  have word' : isWord predicate.text = true := by cases predicate <;> rfl
  have found' : Predicate.ofText? predicate.text = some predicate := by cases predicate <;> rfl
  have other : ArithOp.ofText? kind.text = none := by cases kind <;> rfl
  refine ⟨.compare target kind predicate type l r, ?_, ?_⟩
  · rw [spaced_toList, spaced_toList]
    refine (orElse_refuses (bind_refuses (word_misses word other _))).trans (orElse_reads ?_)
    rw [Draft.compare, bind_reads (word_reads word found _),
      bind_reads (behind_blank (gapped_tabled _) (word_reads word' found' _)),
      bind_reads (behind_blank gapped_operandPair read)]
    rfl
  · simp only [Draft.Instr.meaning, leftMeant, rightMeant]
    rfl

theorem convert_yields (op : ConvertOp) {source : Ty} (result : Ty) {operand : Value}
    (readable : operand.Readable) (sourceType : operand.type = source)
    (stops : Stops isNameChar rest) :
    Yields (Draft.definition target) Draft.Instr.meaning
      (op.text ++ " " ++ typed source operand.text ++ " to " ++ result.text).toList rest
      (.convert (.ofLocal target result) op source operand result) := by
  subst sourceType
  have word : isWord op.text = true := by cases op <;> rfl
  have found : ConvertOp.ofText? op.text = some op := by cases op <;> rfl
  have noArith : ArithOp.ofText? op.text = none := by cases op <;> rfl
  have noCompare : CompareKind.ofText? op.text = none := by cases op <;> rfl
  obtain ⟨draft, read, meant⟩ := typedOperand_reads readable (stops_cons rfl _ :
    Stops isNameChar (' ' :: ("to".toList ++ ' ' :: (result.text.toList ++ rest))))
  have text : (op.text ++ " " ++ typed operand.type operand.text ++ " to " ++ result.text).toList ++
      rest = op.text.toList ++ ' ' :: ((typed operand.type operand.text).toList ++
        ' ' :: ("to".toList ++ ' ' :: (result.text.toList ++ rest))) := by
    simp
  refine ⟨.convert target op ⟨operand.type, draft⟩ result, ?_, ?_⟩
  · rw [text]
    refine (orElse_refuses (bind_refuses (word_misses word noArith _))).trans ?_
    refine (orElse_refuses (bind_refuses (word_misses word noCompare _))).trans ?_
    refine orElse_reads ?_
    rw [Draft.convert, bind_reads (word_reads word found _),
      bind_reads (behind_blank gapped_typedOperand read),
      bind_reads (behind_blank (gapped_keyword _) (keyword_reads (solid_cons rfl _))),
      bind_reads (behind_blank gapped_type (type_reads result stops)), pure_reads]
  · simp only [Draft.Instr.meaning, Draft.TypedOperand.value, meant]
    rfl

/-- Where no operator stands, what is defined is loaded, an address or the result of a
call. -/
private theorem no_operator (word : isWord name = true) (noArith : ArithOp.ofText? name = none)
    (noCompare : CompareKind.ofText? name = none) (noConvert : ConvertOp.ofText? name = none)
    (rest : List Char) :
    Draft.definition target (name.toList ++ ' ' :: rest) =
      ((Draft.load target).orElse ((Draft.elementPtr target).orElse (Draft.call (some target))))
        (name.toList ++ ' ' :: rest) := by
  refine (orElse_refuses (bind_refuses (word_misses word noArith _))).trans ?_
  refine (orElse_refuses (bind_refuses (word_misses word noCompare _))).trans ?_
  exact orElse_refuses (bind_refuses (word_misses word noConvert _))

theorem load_yields (type : Ty) {address : Value} (readable : address.Readable)
    (pointer : address.type = .ptr) (stops : Stops isNameChar rest) :
    Yields (Draft.definition target) Draft.Instr.meaning
      ("load " ++ commaSeparated [type.text, typed .ptr address.text]).toList rest
      (.load (.ofLocal target type) type address) := by
  obtain ⟨draft, read, meant⟩ := typedOperand_reads readable stops
  rw [pointer] at read meant
  have text : ("load " ++ commaSeparated [type.text, typed .ptr address.text]).toList ++ rest =
      "load".toList ++ ' ' :: (type.text.toList ++
        ',' :: ' ' :: ((typed .ptr address.text).toList ++ rest)) := by
    simp [commaSeparated]
  refine ⟨.load target type ⟨.ptr, draft⟩, ?_, ?_⟩
  · rw [text, no_operator target rfl rfl rfl rfl]
    refine orElse_reads ?_
    rw [Draft.load, bind_reads (keyword_blank rfl _),
      bind_reads (behind_blank gapped_type (type_reads type (stops_cons rfl _))),
      bind_reads (comma_reads _), bind_reads (behind_blank gapped_typedOperand read), pure_reads]
  · simp only [Draft.Instr.meaning, Draft.TypedOperand.value, meant]
    rfl

theorem elementPtr_yields (type : Ty) {address offset : Value} (base : address.Readable)
    (distance : offset.Readable) (pointer : address.type = .ptr) (stops : Stops isNameChar rest) :
    Yields (Draft.definition target) Draft.Instr.meaning
      ("getelementptr " ++ commaSeparated
        [type.text, typed .ptr address.text, typed offset.type offset.text]).toList rest
      (.elementPtr (.ofLocal target .ptr) type address offset) := by
  obtain ⟨last, lastRead, lastMeant⟩ := typedOperand_reads distance stops
  obtain ⟨first, firstRead, firstMeant⟩ := typedOperand_reads base
    (stops_cons rfl _ : Stops isNameChar
      (',' :: ' ' :: ((typed offset.type offset.text).toList ++ rest)))
  rw [pointer] at firstRead firstMeant
  have text : ("getelementptr " ++ commaSeparated
      [type.text, typed .ptr address.text, typed offset.type offset.text]).toList ++ rest =
      "getelementptr".toList ++ ' ' :: (type.text.toList ++
        ',' :: ' ' :: ((typed .ptr address.text).toList ++
          ',' :: ' ' :: ((typed offset.type offset.text).toList ++ rest))) := by
    simp [commaSeparated]
  have noLoad : ∀ rest, Draft.load target ("getelementptr".toList ++ rest) = none := fun rest =>
    bind_refuses (keyword_refuses (solid_word rfl rest) 'l' rfl (by simp))
  refine ⟨.elementPtr target type ⟨.ptr, first⟩ ⟨offset.type, last⟩, ?_, ?_⟩
  · rw [text, no_operator target rfl rfl rfl rfl, orElse_refuses (noLoad _)]
    refine orElse_reads ?_
    rw [Draft.elementPtr, bind_reads (keyword_blank rfl _),
      bind_reads (behind_blank gapped_type (type_reads type (stops_cons rfl _))),
      bind_reads (comma_reads _), bind_reads (behind_blank gapped_typedOperand firstRead),
      bind_reads (comma_reads _), bind_reads (behind_blank gapped_typedOperand lastRead),
      pure_reads]
  · simp only [Draft.Instr.meaning, Draft.TypedOperand.value, firstMeant, lastMeant]
    rfl

end

/-- What is written behind the word that begins a call. -/
def callText (type : Ty) (callee : String) (args : List (Ty × Value)) : String :=
  type.text ++ " @" ++ callee ++ "(" ++
    commaSeparated (args.map fun arg => typed arg.1 arg.2.text) ++ ")"

theorem call_yields (target : Option String) (type : Ty) {callee : String} {args : List (Ty × Value)}
    (spelled : Spelled callee) (readable : ∀ arg ∈ args, arg.2.Readable)
    (types : ∀ arg ∈ args, arg.1 = arg.2.type) (rest : List Char) :
    Yields (Draft.call target) Draft.Instr.meaning ("call " ++ callText type callee args).toList rest
      (.call (target.map (Temp.ofLocal · type)) type callee args) := by
  have each : ∀ arg ∈ args, ∀ rest, Stops isNameChar rest →
      Yields Draft.typedOperand (fun arg => do
        let value ← arg.value
        return (arg.type, value)) (typed arg.1 arg.2.text).toList rest arg := by
    rintro ⟨type, value⟩ member rest stops
    obtain rfl : type = value.type := types _ member
    obtain ⟨draft, read, meant⟩ := typedOperand_reads (readable _ member) stops
    refine ⟨_, read, ?_⟩
    simp only [Draft.TypedOperand.value, meant]
    rfl
  have closing : Solid (')' :: rest) := solid_cons rfl rest
  have noComma : symbol ',' (')' :: rest) = none := symbol_refuses closing (by simp)
  have noArg : Draft.typedOperand (')' :: rest) = none :=
    bind_refuses (tabled_refuses rfl closing (stops_cons rfl rest))
  obtain ⟨drafts, read, meant⟩ :=
    separated_yields args gapped_typedOperand each (stops_cons rfl rest) noComma noArg
  have text : ("call " ++ callText type callee args).toList ++ rest =
      "call".toList ++ ' ' :: (type.text.toList ++ ' ' :: '@' :: (callee.toList ++
        '(' :: ((commaSeparated (args.map fun arg => typed arg.1 arg.2.text)).toList ++
          ')' :: rest))) := by
    simp [callText]
  refine ⟨.call target type callee drafts, ?_, ?_⟩
  · rw [text, Draft.call, bind_reads (keyword_blank rfl _),
      bind_reads (behind_blank gapped_type (type_reads type (stops_cons rfl _))),
      bind_reads (behind_blank gapped_globalName (globalName_reads spelled (stops_cons rfl _))),
      bind_reads (symbol_reads rfl _), bind_reads read,
      bind_reads (symbol_reads rfl rest), pure_reads]
  · simp only [Draft.Instr.meaning, meant]
    rfl

/-- A call may be defined. -/
theorem called_yields (target : String) {body : String} {instr : Instr}
    (yields : Yields (Draft.call (some target)) Draft.Instr.meaning ("call " ++ body).toList rest
      instr) :
    Yields (Draft.definition target) Draft.Instr.meaning ("call " ++ body).toList rest instr := by
  obtain ⟨draft, read, meant⟩ := yields
  have text : ("call " ++ body).toList ++ rest = "call".toList ++ ' ' :: (body.toList ++ rest) := by
    simp
  rw [text] at read
  have noLoad : Draft.load target ("call".toList ++ ' ' :: (body.toList ++ rest)) = none :=
    bind_refuses (keyword_refuses (solid_word rfl _) 'l' rfl (by simp))
  have noElement : Draft.elementPtr target ("call".toList ++ ' ' :: (body.toList ++ rest)) = none :=
    bind_refuses (keyword_refuses (solid_word rfl _) 'g' rfl (by simp))
  refine ⟨draft, ?_, meant⟩
  rw [text, no_operator target rfl rfl rfl rfl, orElse_refuses noLoad, orElse_refuses noElement]
  exact read

/-! ## Instructions -/

theorem isPtr_iff {type : Ty} : type.isPtr = true ↔ type = .ptr := by
  cases type <;> decide

theorem defined_reads (spelled : Spelled name) (rest : List Char) :
    Draft.defined ('%' :: (name.toList ++ ' ' :: '=' :: rest)) = some (name, rest) := by
  have sign : symbol '=' (' ' :: '=' :: rest) = some ((), rest) :=
    behind_blank (gapped_symbol '=') (symbol_reads rfl rest)
  rw [Draft.defined, bind_reads (localName_reads spelled (stops_cons rfl _)), bind_reads sign,
    pure_reads]

theorem target_text {temp : Temp} (target : temp.IsTarget) (body : String) (rest : List Char) :
    (temp.text ++ " = " ++ body).toList ++ rest =
      '%' :: (temp.name.spelling.toList ++ ' ' :: '=' :: ' ' :: (body.toList ++ rest)) := by
  simp [Temp.text, Name.text, target.isLocal]

theorem gapped_definition (target : String) : Gapped (Draft.definition target) := by
  refine gapped_orElse (gapped_bind (gapped_tabled _) _) <|
    gapped_orElse (gapped_bind (gapped_tabled _) _) <|
    gapped_orElse (gapped_bind (gapped_tabled _) _) <|
    gapped_orElse (gapped_bind (gapped_keyword _) _) <|
    gapped_orElse (gapped_bind (gapped_keyword _) _) (gapped_bind (gapped_keyword _) _)

/-- A definition is read back if what stands behind its target is. -/
theorem definition_yields {temp : Temp} {type : Ty} {body : String} (target : temp.IsTarget)
    (typed : temp.type = type) (instr : Temp → Instr)
    (text : (instr temp).text.toList = (temp.text ++ " = " ++ body).toList)
    (yields : Yields (Draft.definition temp.name.spelling) Draft.Instr.meaning body.toList rest
      (instr (.ofLocal temp.name.spelling type))) :
    Yields Draft.instr Draft.Instr.meaning (instr temp).text.toList rest (instr temp) := by
  obtain ⟨draft, read, meant⟩ := yields
  rw [← typed, target.ofLocal_eq] at meant
  refine ⟨draft, orElse_reads ?_, meant⟩
  rw [text, target_text target, Draft.definedInstr, bind_reads (defined_reads target.spelled _),
    behind_blank (gapped_definition _) read]

/-- A definition begins with its target. -/
theorem defined_refuses (solid : Solid text) (other : ∀ c ∈ text.head?, c ≠ '%') :
    Draft.defined text = none :=
  bind_refuses (bind_refuses (symbol_refuses solid other))

/-- A store is no definition and no call. -/
theorem store_yields {value address : Value} (content : value.Readable) (base : address.Readable)
    (pointer : address.type = .ptr) (stops : Stops isNameChar rest) :
    Yields Draft.instr Draft.Instr.meaning (Instr.store value address).text.toList rest
      (.store value address) := by
  obtain ⟨last, lastRead, lastMeant⟩ := typedOperand_reads base stops
  rw [pointer] at lastRead lastMeant
  obtain ⟨first, firstRead, firstMeant⟩ := typedOperand_reads content
    (stops_cons rfl _ : Stops isNameChar (',' :: ' ' :: ((typed .ptr address.text).toList ++ rest)))
  have text : (Instr.store value address).text.toList ++ rest =
      "store".toList ++ ' ' :: ((typed value.type value.text).toList ++
        ',' :: ' ' :: ((typed .ptr address.text).toList ++ rest)) := by
    simp [Instr.text, commaSeparated]
  refine ⟨.store ⟨value.type, first⟩ ⟨.ptr, last⟩, ?_, ?_⟩
  · have solid : ∀ rest, Solid ("store".toList ++ rest) := fun rest => solid_word rfl rest
    have noTarget := defined_refuses (solid (' ' :: ((typed value.type value.text).toList ++
      ',' :: ' ' :: ((typed .ptr address.text).toList ++ rest)))) (by simp)
    rw [text]
    refine (orElse_refuses (bind_refuses noTarget)).trans ?_
    refine (orElse_refuses (bind_refuses (keyword_refuses (solid _) 'c' rfl (by simp)))).trans ?_
    rw [Draft.store, bind_reads (keyword_blank rfl _),
      bind_reads (behind_blank gapped_typedOperand firstRead), bind_reads (comma_reads _),
      bind_reads (behind_blank gapped_typedOperand lastRead), pure_reads]
  · simp only [Draft.Instr.meaning, Draft.TypedOperand.value, firstMeant, lastMeant]
    rfl

/-- A call made for its effect is no definition. -/
theorem effect_yields {type : Ty} {callee : String} {args : List (Ty × Value)}
    (yields : Yields (Draft.call none) Draft.Instr.meaning ("call " ++ callText type callee args).toList
      rest (.call none type callee args)) :
    Yields Draft.instr Draft.Instr.meaning (Instr.call none type callee args).text.toList rest
      (.call none type callee args) := by
  obtain ⟨draft, read, meant⟩ := yields
  have text : (Instr.call none type callee args).text = "call " ++ callText type callee args := by
    simp [Instr.text, callText, String.append_assoc]
  have noTarget : Draft.defined (("call " ++ callText type callee args).toList ++ rest) = none := by
    rw [String.toList_append]
    exact defined_refuses (solid_cons rfl _) (by simp)
  refine ⟨draft, ?_, meant⟩
  rw [text]
  exact (orElse_refuses (bind_refuses noTarget)).trans (orElse_reads read)

/-- A plain instruction is read back in front of whatever cannot continue a name. -/
theorem instr_yields {instr : Instr} (readable : instr.Readable) (notPhi : instr.isPhi = false)
    (sequential : instr.isSequential = true) (stops : Stops isNameChar rest) :
    Yields Draft.instr Draft.Instr.meaning instr.text.toList rest instr := by
  obtain ⟨wellTyped, operands, targets, -, complete⟩ := readable
  cases instr with
  | arith temp op type lhs rhs =>
    simp only [Instr.wellTyped, Bool.and_eq_true, decide_eq_true_eq] at wellTyped
    obtain ⟨⟨⟨-, targetType⟩, leftType⟩, rightType⟩ := wellTyped
    have left : lhs.Readable := operands lhs (by simp [Instr.operands])
    have right : rhs.Readable := operands rhs (by simp [Instr.operands])
    exact definition_yields (targets temp rfl) targetType (.arith · op type lhs rhs)
      (by simp [Instr.text]) (arith_yields _ op left right leftType rightType stops)
  | compare temp kind predicate type lhs rhs =>
    simp only [Instr.wellTyped, Bool.and_eq_true, decide_eq_true_eq] at wellTyped
    obtain ⟨⟨⟨-, targetType⟩, leftType⟩, rightType⟩ := wellTyped
    have left : lhs.Readable := operands lhs (by simp [Instr.operands])
    have right : rhs.Readable := operands rhs (by simp [Instr.operands])
    exact definition_yields (targets temp rfl) targetType (.compare · kind predicate type lhs rhs)
      (by simp [Instr.text]) (compare_yields _ kind predicate left right leftType rightType stops)
  | convert temp op source operand result =>
    simp only [Instr.wellTyped, Bool.and_eq_true, decide_eq_true_eq] at wellTyped
    obtain ⟨⟨⟨-, targetType⟩, sourceType⟩, -⟩ := wellTyped
    have readable : operand.Readable := operands operand (by simp [Instr.operands])
    exact definition_yields (targets temp rfl) targetType (.convert · op source operand result)
      (by simp [Instr.text]) (convert_yields _ op result readable sourceType stops)
  | load temp type address =>
    simp only [Instr.wellTyped, Bool.and_eq_true, decide_eq_true_eq] at wellTyped
    obtain ⟨pointer, targetType⟩ := wellTyped
    have readable : address.Readable := operands address (by simp [Instr.operands])
    exact definition_yields (targets temp rfl) targetType (.load · type address)
      (by simp [Instr.text]) (load_yields _ type readable (isPtr_iff.mp pointer) stops)
  | store value address =>
    exact store_yields (operands value (by simp [Instr.operands]))
      (operands address (by simp [Instr.operands])) (isPtr_iff.mp wellTyped) stops
  | elementPtr temp type address offset =>
    simp only [Instr.wellTyped, Bool.and_eq_true] at wellTyped
    obtain ⟨⟨pointer, targetType⟩, -⟩ := wellTyped
    have base : address.Readable := operands address (by simp [Instr.operands])
    have distance : offset.Readable := operands offset (by simp [Instr.operands])
    exact definition_yields (targets temp rfl) (isPtr_iff.mp targetType)
      (.elementPtr · type address offset) (by simp [Instr.text])
      (elementPtr_yields _ type base distance (isPtr_iff.mp pointer) stops)
  | call target type callee args =>
    simp only [Instr.wellTyped, Bool.and_eq_true, List.all_eq_true, decide_eq_true_eq] at wellTyped
    obtain ⟨spelled, targetType⟩ := complete
    have readable : ∀ arg ∈ args, arg.2.Readable := fun arg member =>
      operands arg.2 (List.mem_map.mpr ⟨arg, member, rfl⟩)
    cases target with
    | none => exact effect_yields (call_yields none type spelled readable wellTyped.2 rest)
    | some temp =>
      exact definition_yields (targets temp rfl) (targetType temp rfl)
        (fun temp => .call (some temp) type callee args) (by simp [Instr.text, callText])
        (called_yields _ (call_yields (some _) type spelled readable wellTyped.2 rest))
  | phi p => cases notPhi
  | jump target => cases sequential
  | branch type condition onTrue onFalse => cases sequential
  | ret value => cases sequential

/-- A phi ends where no comma follows. -/
theorem phi_yields {phi : Phi} (readable : (Instr.phi phi).Readable) (stops : Stops isNameChar rest)
    (noComma : symbol ',' rest = none) :
    Yields Draft.phi Draft.Phi.meaning phi.text.toList rest phi := by
  obtain ⟨wellTyped, operands, targets, -, targetType, nonempty, labels⟩ := readable
  simp only [Instr.wellTyped, List.all_eq_true, decide_eq_true_eq] at wellTyped
  have target : phi.target.IsTarget := targets phi.target rfl
  have each : ∀ source ∈ phi.sources, ∀ rest, Stops isNameChar rest →
      Yields Draft.phiSource (fun source => do
        let value ← Draft.Operand.value phi.type source.1
        return (value, source.2))
        ("[ " ++ source.1.text ++ ", %" ++ source.2 ++ " ]").toList rest source := by
    intro source member rest stops
    have readable : source.1.Readable := operands source.1 (List.mem_map.mpr ⟨source, member, rfl⟩)
    obtain ⟨draft, read, meant⟩ := operand_yields readable
      (stops_cons rfl _ : Stops isNameChar
        (',' :: ' ' :: '%' :: (source.2.toList ++ ' ' :: ']' :: rest)))
    rw [wellTyped source member] at meant
    have text : ("[ " ++ source.1.text ++ ", %" ++ source.2 ++ " ]").toList ++ rest =
        '[' :: ' ' :: (source.1.text.toList ++
          ',' :: ' ' :: '%' :: (source.2.toList ++ ' ' :: ']' :: rest)) := by
      simp
    refine ⟨(draft, source.2), ?_, ?_⟩
    · rw [text, Draft.phiSource, bind_reads (symbol_reads rfl _),
        bind_reads (behind_blank gapped_operand read), bind_reads (comma_reads _),
        bind_reads (behind_blank gapped_localName
          (localName_reads (labels source member) (stops_cons rfl _))),
        bind_reads (behind_blank (gapped_symbol ']') (symbol_reads rfl rest)), pure_reads]
    · simp only [meant]
      rfl
  have gapped : Gapped Draft.phiSource := gapped_bind (gapped_symbol '[') _
  have gappedRow : Gapped (Draft.separated1 Draft.phiSource) := gapped_bind gapped _
  obtain ⟨drafts, read, meant⟩ := separated1_yields gapped nonempty each stops noComma
  have text : phi.text.toList ++ rest = '%' :: (phi.target.name.spelling.toList ++
      ' ' :: '=' :: ' ' :: ("phi".toList ++ ' ' :: (phi.type.text.toList ++
        ' ' :: ((commaSeparated (phi.sources.map fun source =>
          "[ " ++ source.1.text ++ ", %" ++ source.2 ++ " ]")).toList ++ rest)))) := by
    simp [Phi.text, Temp.text, Name.text, target.isLocal]
  refine ⟨⟨phi.target.name.spelling, phi.type, drafts⟩, ?_, ?_⟩
  · rw [text, Draft.phi, bind_reads (defined_reads target.spelled _),
      bind_reads (behind_blank (gapped_keyword _) (keyword_blank rfl _)),
      bind_reads (behind_blank gapped_type (type_reads phi.type (stops_cons rfl _))),
      bind_reads (behind_blank gappedRow read), pure_reads]
  · have same := target.ofLocal_eq
    rw [targetType] at same
    simp only [Draft.Phi.meaning, meant]
    change Except.ok
      (Phi.mk (Temp.ofLocal phi.target.name.spelling phi.type) phi.type phi.sources) = _
    rw [same]

theorem destination_reads (spelled : Spelled label) (stops : Stops isNameChar rest) :
    Draft.destination (("label %" ++ label).toList ++ rest) = some (label, rest) := by
  have text : ("label %" ++ label).toList ++ rest =
      "label".toList ++ ' ' :: '%' :: (label.toList ++ rest) := by
    simp
  rw [text, Draft.destination, bind_reads (keyword_blank rfl _),
    behind_blank gapped_localName (localName_reads spelled stops)]

theorem gapped_destination : Gapped Draft.destination := gapped_bind (gapped_keyword _) _

/-- The end of a block is read back. -/
theorem terminator_yields {instr : Instr} (readable : instr.Readable)
    (ends : instr.isSequential = false) (stops : Stops isNameChar rest) :
    Yields Draft.terminator Draft.Terminator.meaning instr.text.toList rest instr := by
  obtain ⟨wellTyped, operands, -, labels, complete⟩ := readable
  cases instr with
  | jump target =>
    have text : (Instr.jump target).text.toList ++ rest =
        "br".toList ++ ' ' :: (("label %" ++ target).toList ++ rest) := by
      simp [Instr.text]
    refine ⟨.jump target, ?_, rfl⟩
    rw [text]
    refine orElse_reads ?_
    rw [Draft.jump, bind_reads (keyword_blank rfl _), bind_reads (behind_blank gapped_destination
      (destination_reads (labels target (by simp [Instr.targets])) stops)), pure_reads]
  | branch type condition onTrue onFalse =>
    simp only [Instr.wellTyped, Bool.and_eq_true, decide_eq_true_eq] at wellTyped
    obtain ⟨rfl, conditionType⟩ := wellTyped
    obtain ⟨draft, read, meant⟩ := typedOperand_reads (operands condition (by simp [Instr.operands]))
      (stops_cons rfl _ : Stops isNameChar (',' :: ' ' :: (("label %" ++ onTrue).toList ++
        ',' :: ' ' :: (("label %" ++ onFalse).toList ++ rest))))
    rw [conditionType] at read meant
    have text : (Instr.branch .i1 condition onTrue onFalse).text.toList ++ rest = "br".toList ++
        ' ' :: ((typed .i1 condition.text).toList ++
          ',' :: ' ' :: (("label %" ++ onTrue).toList ++
            ',' :: ' ' :: (("label %" ++ onFalse).toList ++ rest))) := by
      simp [Instr.text, commaSeparated]
    have noLabel : ∀ rest, Draft.destination ((typed .i1 condition.text).toList ++ rest) = none := by
      intro rest
      rw [typed_toList]
      exact bind_refuses (keyword_refuses (solid_cons rfl _) 'l' rfl
        (by simp [Ty.text]))
    refine ⟨.branch ⟨.i1, draft⟩ onTrue onFalse, ?_, ?_⟩
    · have noJump : ∀ rest, Draft.jump ("br".toList ++ ' ' ::
          ((typed .i1 condition.text).toList ++ rest)) = none := by
        intro rest
        rw [Draft.jump, bind_reads (keyword_blank rfl _)]
        exact bind_refuses (behind_blank gapped_destination (noLabel rest))
      rw [text, Draft.terminator, orElse_refuses (noJump _)]
      refine orElse_reads ?_
      rw [Draft.branch, bind_reads (keyword_blank rfl _),
        bind_reads (behind_blank gapped_typedOperand read), bind_reads (comma_reads _),
        bind_reads (behind_blank gapped_destination (destination_reads
          (labels onTrue (by simp [Instr.targets])) (stops_cons rfl _))),
        bind_reads (comma_reads _), bind_reads (behind_blank gapped_destination
          (destination_reads (labels onFalse (by simp [Instr.targets])) stops)), pure_reads]
    · simp only [Draft.Terminator.meaning, Draft.TypedOperand.value, meant]
      rfl
  | ret value =>
    have noBranch : ∀ rest, Draft.terminator ("ret".toList ++ ' ' :: rest) =
        Draft.ret ("ret".toList ++ ' ' :: rest) := by
      intro rest
      have noKeyword : keyword "br" ("ret".toList ++ ' ' :: rest) = none :=
        keyword_refuses (solid_word rfl _) 'b' rfl (by simp)
      exact (orElse_refuses (bind_refuses noKeyword)).trans
        (orElse_refuses (bind_refuses noKeyword))
    cases value with
    | none =>
      have text : (Instr.ret none).text.toList ++ rest =
          "ret".toList ++ ' ' :: (Ty.void.text.toList ++ rest) := by
        simp [Instr.text, Ty.text]
      refine ⟨.ret none, ?_, rfl⟩
      rw [text, noBranch, Draft.ret, bind_reads (keyword_blank rfl _),
        bind_reads (behind_blank gapped_type (type_reads .void stops)), if_pos rfl, pure_reads]
    | some value =>
      obtain ⟨draft, read, meant⟩ :=
        operand_yields (operands value (by simp [Instr.operands])) stops
      have text : (Instr.ret (some value)).text.toList ++ rest = "ret".toList ++
          ' ' :: (value.type.text.toList ++ ' ' :: (value.text.toList ++ rest)) := by
        simp [Instr.text, typed]
      refine ⟨.ret (some ⟨value.type, draft⟩), ?_, ?_⟩
      · rw [text, noBranch, Draft.ret, bind_reads (keyword_blank rfl _),
          bind_reads (behind_blank gapped_type (type_reads value.type (stops_cons rfl _))),
          if_neg (complete value rfl), bind_reads (behind_blank gapped_operand read), pure_reads]
      · simp only [Draft.Terminator.meaning, Draft.TypedOperand.value, meant]
        rfl
  | _ => cases ends

/-! ## How instructions begin -/

/-- Behind the target of a definition stands a word that does not begin as a phi does. -/
private theorem definition_begins {instr : Instr} {temp : Temp} (notPhi : instr.isPhi = false)
    (written : instr.target? = some temp) : ∃ word more : String,
      isWord word = true ∧ word.toList.head? ≠ some 'p' ∧
        instr.text.toList = (temp.text ++ " = " ++ (word ++ " " ++ more)).toList := by
  cases instr with
  | arith target op type lhs rhs =>
    cases written
    refine ⟨op.text, commaSeparated [typed type lhs.text, rhs.text], ?_, ?_, by simp [Instr.text]⟩
    · cases op <;> rfl
    · cases op <;> decide
  | compare target kind predicate type lhs rhs =>
    cases written
    refine ⟨kind.text, predicate.text ++ " " ++ commaSeparated [typed type lhs.text, rhs.text],
      ?_, ?_, by simp [Instr.text]⟩
    · cases kind <;> rfl
    · cases kind <;> decide
  | convert target op source operand result =>
    cases written
    refine ⟨op.text, typed source operand.text ++ " to " ++ result.text, ?_, ?_,
      by simp [Instr.text]⟩
    · cases op <;> rfl
    · cases op <;> decide
  | load target type address =>
    cases written
    exact ⟨"load", commaSeparated [type.text, typed .ptr address.text], rfl, by decide,
      by simp [Instr.text]⟩
  | elementPtr target type address offset =>
    cases written
    exact ⟨"getelementptr",
      commaSeparated [type.text, typed .ptr address.text, typed offset.type offset.text], rfl,
      by decide, by simp [Instr.text]⟩
  | call target type callee args =>
    cases target with
    | none => cases written
    | some target =>
      cases written
      exact ⟨"call", callText type callee args, rfl, by decide, by simp [Instr.text, callText]⟩
  | phi p => cases notPhi
  | _ => cases written

/-- An instruction that defines nothing begins with a word. -/
private theorem plain_begins {instr : Instr} (written : instr.target? = none) :
    ∃ word more : String, isWord word = true ∧ instr.text.toList = (word ++ " " ++ more).toList ∧
      (instr.isSequential = false → word = "br" ∨ word = "ret") := by
  cases instr with
  | store value address =>
    exact ⟨"store", commaSeparated [typed value.type value.text, typed .ptr address.text], rfl,
      by simp [Instr.text], fun ends => by cases ends⟩
  | call target type callee args =>
    cases target with
    | none => exact ⟨"call", callText type callee args, rfl, by simp [Instr.text, callText],
        fun ends => by cases ends⟩
    | some target => cases written
  | jump target => exact ⟨"br", "label %" ++ target, rfl, by simp [Instr.text], fun _ => .inl rfl⟩
  | branch type condition onTrue onFalse =>
    exact ⟨"br", commaSeparated [typed type condition.text, "label %" ++ onTrue,
      "label %" ++ onFalse], rfl, by simp [Instr.text], fun _ => .inl rfl⟩
  | ret value =>
    cases value with
    | none => exact ⟨"ret", "void", rfl, by simp [Instr.text], fun _ => .inr rfl⟩
    | some value =>
      exact ⟨"ret", typed value.type value.text, rfl, by simp [Instr.text], fun _ => .inr rfl⟩
  | _ => cases written

private theorem word_begins (word : isWord name = true) (sign : Char)
    (other : isWordChar sign = false) (rest : List Char) : ∀ c ∈ (name.toList ++ rest).head?, c ≠ sign := by
  simp only [isWord, Bool.and_eq_true, Bool.not_eq_true', List.isEmpty_eq_false_iff,
    List.all_eq_true] at word
  obtain ⟨nonempty, letters⟩ := word
  cases spelled : name.toList with
  | nil => exact absurd spelled nonempty
  | cons d more =>
    rintro c first rfl
    obtain rfl : d = c := by simpa using first
    exact absurd (letters d (by simp [spelled])) (by simp [other])

/-- An instruction begins with a word or with the sigil of its target. -/
theorem comma_refuses {instr : Instr} (readable : instr.Readable) (rest : List Char) :
    Solid (instr.text.toList ++ rest) ∧ symbol ',' (instr.text.toList ++ rest) = none := by
  have sigil : ∀ more, Solid ('%' :: more) ∧ symbol ',' ('%' :: more) = none := fun more =>
    ⟨solid_cons rfl more, symbol_refuses (solid_cons rfl more) (by simp)⟩
  cases written : instr.target? with
  | none =>
    obtain ⟨word, more, isWord, text, -⟩ := plain_begins written
    rw [text, spaced_toList]
    exact ⟨solid_word isWord _,
      symbol_refuses (solid_word isWord _) (word_begins isWord ',' rfl _)⟩
  | some temp =>
    have target := readable.target temp written
    cases phi : instr.isPhi with
    | false =>
      obtain ⟨word, more, -, -, text⟩ := definition_begins phi written
      rw [text, target_text target]
      exact sigil _
    | true =>
      cases instr with
      | phi p =>
        cases written
        have text : (Instr.phi p).text.toList ++ rest = (p.target.text ++ " = " ++ ("phi " ++
            p.type.text ++ " " ++ commaSeparated (p.sources.map fun source =>
              "[ " ++ source.1.text ++ ", %" ++ source.2 ++ " ]"))).toList ++ rest := by
          simp [Instr.text, Phi.text]
        rw [text, target_text target]
        exact sigil _
      | _ => cases phi

/-- Where a plain instruction or the end of a block begins, no phi does. -/
theorem phi_refuses {instr : Instr} (readable : instr.Readable) (notPhi : instr.isPhi = false)
    (rest : List Char) : Draft.phi (instr.text.toList ++ rest) = none := by
  cases written : instr.target? with
  | none =>
    obtain ⟨word, more, isWord, text, -⟩ := plain_begins written
    rw [text, spaced_toList]
    exact bind_refuses (defined_refuses (solid_word isWord _) (word_begins isWord '%' rfl _))
  | some temp =>
    have target := readable.target temp written
    obtain ⟨word, more, isWord, other, text⟩ := definition_begins notPhi written
    rw [text, target_text target, spaced_toList, Draft.phi,
      bind_reads (defined_reads target.spelled _)]
    refine bind_refuses (behind_blank (gapped_keyword _)
      (keyword_refuses (solid_word isWord _) 'p' rfl ?_))
    rintro c first rfl
    cases letters : word.toList with
    | nil => simp [KernelGuard.Lexeme.isWord, letters] at isWord
    | cons d more => simp_all

/-- Where the end of a block begins, no plain instruction does. -/
theorem instr_refuses {instr : Instr} (ends : instr.isSequential = false) (rest : List Char) :
    Draft.instr (instr.text.toList ++ rest) = none := by
  have written : instr.target? = none := by
    cases instr <;> first | rfl | cases ends
  obtain ⟨word, more, isWord, text, which⟩ := plain_begins written
  have solid : Solid (word.toList ++ ' ' :: (more.toList ++ rest)) := solid_word isWord _
  rw [text, spaced_toList]
  have noTarget := defined_refuses solid (word_begins isWord '%' rfl _)
  refine (orElse_refuses (bind_refuses noTarget)).trans ?_
  rcases which ends with rfl | rfl
  · exact (orElse_refuses (bind_refuses (keyword_refuses solid 'c' rfl (by simp)))).trans
      (bind_refuses (keyword_refuses solid 's' rfl (by simp)))
  · exact (orElse_refuses (bind_refuses (keyword_refuses solid 'c' rfl (by simp)))).trans
      (bind_refuses (keyword_refuses solid 's' rfl (by simp)))

end ReadBack

end KernelGuard
